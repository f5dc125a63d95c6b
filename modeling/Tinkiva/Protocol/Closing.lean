import Tinkiva.Protocol.Invariants

/-!
# Opening and closing before the shutdown

Until the shutdown is called, a resource is closed by the agent that closed its
word and by nobody else.  `Orderly` says so with counts.

* The duty to close a resource is owned at most once, and it is owned or has
  been carried out exactly when the word of the resource is closed.
* The initialiser of a resource runs at most once at a time.
* Pools that a lease relies on have been opened, and a resource whose word is
  not closed is not draining.

`Orderly.ready_stage` puts them together: what a lease relies on is open and
its closing has not been started.
-/

namespace Tinkiva.Protocol

open ConcurrentMap TokenPool SentinelCounter Token

variable {κ : Type} [DecidableEq κ] {L : Limits} {x x' : Config κ}
  {allowed : Config κ → Multiset (Token κ) → Config κ → Prop}

/-- The shutdown has not been called. -/
def BeforeShutdown (_ : Config κ) (_ : Multiset (Token κ)) (x' : Config κ) : Prop :=
  Token.shutdown ∉ x'.pool

/-- The shutdown is not called off. -/
theorem Rule.shutdown_produced {r r' : Registry κ} {c p : Multiset (Token κ)}
    (h : Rule L r c r' p) (hc : Token.shutdown ∈ c) : Token.shutdown ∈ p := by
  cases h with
  | clear | doom | shutdownWork => simp
  | _ => simp at hc

theorem Rule.shutdown_of_doomed {r r' : Registry κ} {c p : Multiset (Token κ)}
    (h : Rule L r c r' p) {e : Nat} (hp : Token.doomed e ∈ p) : Token.shutdown ∈ c := by
  cases h with
  | clear => simp
  | _ => simp at hp

theorem Rule.of_closing_produced {r r' : Registry κ} {c p : Multiset (Token κ)}
    (h : Rule L r c r' p) {e : Nat} (hp : Token.closing e ∈ p) :
    Token.due e ∈ c ∨ Token.closing e ∈ c := by
  cases h with
  | closeStart | drain => simp_all
  | clear => simp at hp
  | _ => simp at hp

theorem Rule.of_ready_produced {r r' : Registry κ} {c p : Multiset (Token κ)}
    (h : Rule L r c r' p) {e : Nat} (hp : Token.lease e .ready ∈ p) :
    (r'.stage e).opened = true := by
  cases h with
  | findReady hs =>
    obtain rfl : e = _ := by simpa using hp
    exact hs
  | opened =>
    obtain rfl : e = _ := by simpa using hp
    simp [Registry.setStage, Stage.opened]
  | clear => simp at hp
  | _ => simp at hp

/-- What holds of opening and closing before the shutdown. -/
structure Orderly (L : Limits) (x : Config κ) : Prop where
  undoomed : ∀ e, Token.doomed e ∉ x.pool
  starts : ∀ e, x.registry.starts e + count (closes e) x.pool =
    if x.registry.word e = L.top then 1 else 0
  closing : ∀ e, Token.closing e ∈ x.pool → x.registry.word e = L.top
  opening : ∀ e, count (opens e) x.pool = if x.registry.stage e = .opening then 1 else 0
  ready : ∀ e, Token.lease e .ready ∈ x.pool → (x.registry.stage e).opened = true
  stage : ∀ e, x.registry.word e ≠ L.top → x.registry.stage e = .unopened ∨
    x.registry.stage e = .opening ∨ x.registry.stage e = .ready

omit [DecidableEq κ] in
theorem closes_knowledge (e : Nat) (t : Token κ) (ht : t.Knowledge) : t.closes e = false := by
  cases t <;> first | rfl | exact ht.elim

omit [DecidableEq κ] in
theorem opens_knowledge (e : Nat) (t : Token κ) (ht : t.Knowledge) : t.opens e = false := by
  cases t <;> first | rfl | exact ht.elim

omit [DecidableEq κ] in
/-- Whoever has the duty to close a resource, its word is closed. -/
theorem Orderly.closed_of_closes (h : Orderly L x) {t : Token κ} {e : Nat} (ht : t ∈ x.pool)
    (hc : t.closes e = true) : x.registry.word e = L.top := by
  have hpos := count_pos_of_mem ht hc
  have := h.starts e
  by_contra hne
  rw [if_neg hne] at this
  omega

omit [DecidableEq κ] in
/-- While an initialiser runs, the resource is opening. -/
theorem Orderly.opening_of_opens (h : Orderly L x) {t : Token κ} {e : Nat} (ht : t ∈ x.pool)
    (ho : t.opens e = true) : x.registry.stage e = .opening := by
  have hpos := count_pos_of_mem ht ho
  have := h.opening e
  by_contra hne
  rw [if_neg hne] at this
  omega

/-! ## The step lemma -/

section Step

variable (h : Orderly L x) (hinv : Inv L x) (hs : Step L allowed x x')
  (hbefore : Token.shutdown ∉ x'.pool)

include hbefore in
omit [DecidableEq κ] in
theorem no_shutdown_consumed {c p : Multiset (Token κ)} [DecidableEq κ]
    (hrule : Rule L x.registry c x'.registry p)
    (hrw : Rewrites Knowledge x.pool c p x'.pool) : Token.shutdown ∉ c :=
  fun hc => hbefore (hrw.mem_of_produced (hrule.shutdown_produced hc))

include h hs hbefore in
theorem Orderly.undoomed_step (e : Nat) : Token.doomed e ∉ x'.pool := by
  obtain ⟨c, p, hrule, hrw, _, _⟩ := hs
  intro hd
  rcases hrw.mem_cases hd with hd | hd
  · exact h.undoomed e hd
  · exact no_shutdown_consumed hbefore hrule hrw (hrule.shutdown_of_doomed hd)

include h hinv hs in
/-- Before the shutdown a word is closed by the step that takes on the duty. -/
theorem Orderly.closed_step {e : Nat} (hw : x'.registry.word e = L.top) :
    x.registry.word e = L.top ∨ (∃ n, taking n e ∈ x.pool ∧ removing n e ∈ x'.pool) := by
  rcases hs.closed_cases hinv.sound hinv.balanced hw with hw | htake | hd
  · exact Or.inl hw
  · exact Or.inr htake
  · exact absurd hd (h.undoomed e)

include h hinv hs hbefore in
theorem Orderly.starts_step (e : Nat) :
    x'.registry.starts e + count (closes e) x'.pool =
      if x'.registry.word e = L.top then 1 else 0 := by
  have hstays := hinv.balanced.closed_stays hinv.sound hs (e := e)
  have hclosed := h.closed_step hinv hs (e := e)
  obtain ⟨c, p, hrule, hrw, _, _⟩ := hs
  have hbal := hrw.count_balance (closes_knowledge e)
  have hold := h.starts e
  rcases hrule.starts_cases e with hst | ⟨n, hw, rfl, rfl, hr⟩ | hsh
  · -- The duty is passed on, so the word is closed exactly if it was before.
    have hiff : x'.registry.word e = L.top ↔ x.registry.word e = L.top := by
      refine ⟨fun hw => ?_, hstays⟩
      rcases hclosed hw with hw | ⟨n, _, hrem⟩
      · exact hw
      · have hpos := count_pos_of_mem hrem (q := closes e) (by simp [closes])
        by_contra hne
        rw [if_neg hne] at hold
        omega
    simp only [hiff]
    omega
  · have hne : x.registry.word e ≠ L.top := by
      have := L.top_pos
      omega
    rw [if_neg hne] at hold
    have hw' : x'.registry.word e = L.top := by simp [hr, Registry.setWord]
    have hst : x'.registry.starts e = x.registry.starts e := by rw [hr]; rfl
    rw [if_pos hw', hst]
    simp [closes] at hbal
    omega
  · exact absurd hsh (no_shutdown_consumed hbefore hrule hrw)

include h hinv hs in
theorem Orderly.closing_step (e : Nat) (he : Token.closing e ∈ x'.pool) :
    x'.registry.word e = L.top := by
  apply hinv.balanced.closed_stays hinv.sound hs
  obtain ⟨c, p, hrule, hrw, _, _⟩ := hs
  rcases hrw.mem_cases he with he | he
  · exact h.closing e he
  · rcases hrule.of_closing_produced he with hd | hcl
    · exact h.closed_of_closes (hrw.mem_of_consumed hd) (by simp [closes])
    · exact h.closing e (hrw.mem_of_consumed hcl)

include h hinv hs hbefore in
theorem Orderly.opening_step (e : Nat) :
    count (opens e) x'.pool = if x'.registry.stage e = .opening then 1 else 0 := by
  obtain ⟨c, p, hrule, hrw, _, _⟩ := hs
  have hbal := hrw.count_balance (opens_knowledge e)
  have hle : count (opens e) c ≤ count (opens e) x.pool := hrw.count_consumed_le
  have hold := h.opening e
  rcases hrule.stage_cases e with ⟨hst, hc⟩ | ⟨hst, hst', n, rfl, rfl⟩ | ⟨hst', rfl, rfl⟩ |
    ⟨hst', hc, hp⟩ | ⟨hst', hcl, hc⟩ | ⟨rfl, hst', hc⟩ | hsh
  · rw [hst]
    omega
  · rw [hst, if_neg (by simp)] at hold
    rw [hst', if_pos rfl]
    simp [opens] at hbal
    omega
  · rw [hst', if_neg (by simp)]
    split at hold <;> simp [opens] at hbal hle <;> omega
  · rw [hst', if_neg (by simp)]
    split at hold <;> omega
  · have hiff : x'.registry.stage e = .opening ↔ x.registry.stage e = .opening := by
      rcases hst' with hst' | hst' <;> rw [hst'] <;>
        cases x.registry.stage e <;> simp [Stage.drain, Stage.shut]
    simp only [hiff]
    omega
  · have hnone : count (opens x.registry.created) x.pool = 0 :=
      hinv.sound.count_eq_zero (fun t ht => by
        unfold opens at ht
        split at ht <;> simp_all [resource]) le_rfl
    rw [hst', if_neg (by simp)]
    omega
  · exact absurd hsh (no_shutdown_consumed hbefore hrule hrw)

include h hinv hs hbefore in
theorem Orderly.ready_step (e : Nat) (he : Token.lease e .ready ∈ x'.pool) :
    (x'.registry.stage e).opened = true := by
  obtain ⟨c, p, hrule, hrw, _, _⟩ := hs
  rcases hrw.mem_cases he with he | he
  · have hold := h.ready e he
    rcases hrule.stage_cases e with ⟨hst, _⟩ | ⟨hst, _⟩ | ⟨hst', _⟩ | ⟨_, hc, _⟩ |
      ⟨hst', _⟩ | ⟨rfl, _⟩ | hsh
    · rw [hst, hold]
    · rw [hst] at hold
      exact absurd hold (by simp [Stage.opened])
    · rw [hst']
      rfl
    · -- An open that fails or is cancelled has not been ready.
      obtain ⟨t, ht, hto⟩ := count_pos.mp (Nat.lt_of_lt_of_eq Nat.one_pos hc.symm)
      rw [h.opening_of_opens (hrw.mem_of_consumed ht) hto] at hold
      exact absurd hold (by simp [Stage.opened])
    · rcases hst' with hst' | hst' <;> rw [hst'] <;>
        cases hx : x.registry.stage e <;> simp_all [Stage.drain, Stage.shut, Stage.opened]
    · exact absurd ((hinv.sound.tokens _ he).lt rfl) (Nat.lt_irrefl _)
    · exact absurd hsh (no_shutdown_consumed hbefore hrule hrw)
  · exact hrule.of_ready_produced he

include h hinv hs hbefore in
theorem Orderly.stage_step (e : Nat) (hw' : x'.registry.word e ≠ L.top) :
    x'.registry.stage e = .unopened ∨ x'.registry.stage e = .opening ∨
      x'.registry.stage e = .ready := by
  have hw : x.registry.word e ≠ L.top := fun hw =>
    hw' (hinv.balanced.closed_stays hinv.sound hs hw)
  obtain ⟨c, p, hrule, hrw, _, _⟩ := hs
  rcases hrule.stage_cases e with ⟨hst, _⟩ | ⟨_, hst', _⟩ | ⟨hst', _⟩ | ⟨hst', _⟩ |
    ⟨_, hcl, _⟩ | ⟨_, hst', _⟩ | hsh
  · rw [hst]
    exact h.stage e hw
  · exact Or.inr (Or.inl hst')
  · exact Or.inr (Or.inr hst')
  · exact Or.inl hst'
  · exact absurd (h.closing e (hrw.mem_of_consumed hcl)) hw
  · exact Or.inl hst'
  · exact absurd hsh (no_shutdown_consumed hbefore hrule hrw)

include h hinv hs hbefore in
/-- A step before the shutdown keeps the order. -/
theorem Orderly.step : Orderly L x' where
  undoomed := h.undoomed_step hs hbefore
  starts := h.starts_step hinv hs hbefore
  closing := h.closing_step hinv hs
  opening := h.opening_step hinv hs hbefore
  ready := h.ready_step hinv hs hbefore
  stage := h.stage_step hinv hs hbefore

end Step

omit [DecidableEq κ] in
theorem Orderly.init (L : Limits) (blank : κ) : Orderly L ⟨.init L blank, 0⟩ where
  undoomed := fun _ => Multiset.notMem_zero _
  starts := fun _ => (if_neg (Nat.ne_of_lt L.top_pos)).symm
  closing := fun _ he => absurd he (Multiset.notMem_zero _)
  opening := fun _ => rfl
  ready := fun _ he => absurd he (Multiset.notMem_zero _)
  stage := fun _ _ => Or.inl rfl

/-- What a lease relies on is open, and its closing has not been started. -/
theorem Orderly.ready_stage (h : Orderly L x) (hinv : Inv L x) {e : Nat}
    (he : Token.lease e .ready ∈ x.pool) :
    x.registry.stage e = .ready ∧ x.registry.starts e = 0 := by
  have hpos : 0 < x.leases e := count_pos_of_mem he (by simp [leases])
  have hw := ((hinv.balanced e).of_pos hpos).2
  have hst := h.starts e
  rw [if_neg hw] at hst
  have hopen := h.ready e he
  refine ⟨?_, by omega⟩
  rcases h.stage e hw with hs | hs | hs
  · rw [hs] at hopen
    exact absurd hopen (by simp [Stage.opened])
  · rw [hs] at hopen
    exact absurd hopen (by simp [Stage.opened])
  · exact hs

/-- Before the shutdown, the pools of a resource without a lease are not opened:
once closed, or never opened, they stay so. -/
theorem Step.alive_stays (hs : Step L allowed x x') (hshutdown : Token.shutdown ∉ x.pool) {e : Nat}
    (hnone : x.leases e = 0) (halive : (x.registry.stage e).alive = false) :
    (x'.registry.stage e).alive = false := by
  obtain ⟨c, p, hrule, hrw, _, _⟩ := hs
  rcases hrule.stage_cases e with ⟨hst, _⟩ | ⟨_, hst, _⟩ | ⟨_, rfl, _⟩ | ⟨hst, _⟩ |
    ⟨hst | hst, _⟩ | ⟨_, hst, _⟩ | hc
  · rwa [hst]
  · rw [hst]
    rfl
  · have hpos : 0 < x.leases e :=
      count_pos_of_mem (hrw.mem_of_consumed (Multiset.mem_singleton_self _)) (by simp [leases])
    omega
  · rw [hst]
    rfl
  · rw [hst]
    cases hstage : x.registry.stage e <;> simp_all [Stage.drain, Stage.alive]
  · rw [hst]
    cases hstage : x.registry.stage e <;> simp_all [Stage.shut, Stage.alive]
  · rw [hst]
    rfl
  · exact absurd (hrw.mem_of_consumed hc) hshutdown

end Tinkiva.Protocol
