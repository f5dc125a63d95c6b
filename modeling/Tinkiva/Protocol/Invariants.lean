import Tinkiva.Protocol.Rules

/-!
# What every run of the protocol keeps

The invariants that hold in every run, with failed opens, cancelled callers and
a shutdown among its steps.

* `Sound`: names and numbers agree, and a token names a resource that exists.
* `Balanced`: the word of a resource counts its leases.
* `Guarded`: the admission guard is owned once, what its owner knows is true,
  and the registry is within its capacity.
* `Conserved`: a permit is in its semaphore or in the pool.
* `Sealed`: a linked and closed resource is about to be unlinked.

`Inv` is all of them, and `Inv.step` is the step lemma.  `closed_stays` and
`unlinked_stays` are what a run keeps of one resource.
-/

namespace Tinkiva.Protocol

open ConcurrentMap TokenPool SentinelCounter Token

variable {κ : Type} [DecidableEq κ] {L : Limits} {x x' : Config κ}
  {allowed : Config κ → Multiset (Token κ) → Config κ → Prop}

/-! ## Names and numbers -/

/-- What a token says about its resource is right. -/
def Token.Sound (r : Registry κ) : Token κ → Prop
  | lease e (.failing n) | acquiring n e | taking n e | removing n e =>
    e < r.created ∧ r.name e = n
  | lease e _ | tenantSlot e | due e | closing e | collected e | doomed e => e < r.created
  | slot | guard _ | Token.shutdown => True

structure Sound (x : Config κ) : Prop where
  linked : ∀ {n e}, x.registry.entries.lookup n = some e →
    e < x.registry.created ∧ x.registry.name e = n
  tokens : ∀ t ∈ x.pool, t.Sound x.registry
  fresh : ∀ e, x.registry.created ≤ e → x.registry.word e = 0

omit [DecidableEq κ] in
/-- What is said about a resource stays right while names are kept. -/
theorem Token.Sound.mono {r r' : Registry κ} {t : Token κ} (h : t.Sound r)
    (hcreated : r.created ≤ r'.created) (hname : ∀ e < r.created, r'.name e = r.name e) :
    t.Sound r' := by
  cases t with
  | lease e use =>
    cases use with
    | failing n => exact ⟨Nat.lt_of_lt_of_le h.1 hcreated, (hname e h.1).trans h.2⟩
    | idle | opening | ready => exact Nat.lt_of_lt_of_le h hcreated
  | acquiring n e | taking n e | removing n e =>
    exact ⟨Nat.lt_of_lt_of_le h.1 hcreated, (hname e h.1).trans h.2⟩
  | tenantSlot e | due e | closing e | collected e | doomed e =>
    exact Nat.lt_of_lt_of_le h hcreated
  | slot | guard g | shutdown => trivial

omit [DecidableEq κ] in
/-- The resource that a token names exists. -/
theorem Token.Sound.lt {r : Registry κ} {t : Token κ} {e : Nat} (h : t.Sound r)
    (ht : t.resource = some e) : e < r.created := by
  cases t with
  | lease e' use =>
    obtain rfl : e' = e := Option.some.inj ht
    cases use with
    | failing n => exact h.1
    | idle | opening | ready => exact h
  | acquiring n e' | taking n e' | removing n e' =>
    obtain rfl : e' = e := Option.some.inj ht
    exact h.1
  | tenantSlot e' | due e' | closing e' | collected e' | doomed e' =>
    obtain rfl : e' = e := Option.some.inj ht
    exact h
  | slot | guard g | shutdown => exact absurd ht (by simp [resource])

/-- No token names a resource that does not exist. -/
theorem Sound.count_eq_zero (h : Sound x) {q : Token κ → Bool} {e : Nat}
    (hq : ∀ t, q t = true → t.resource = some e) (he : x.registry.created ≤ e) :
    count q x.pool = 0 := by
  apply TokenPool.count_eq_zero.mpr
  intro t ht
  by_contra hne
  have := (h.tokens t ht).lt (hq t (by simpa using hne))
  omega

/-- The number of resources grows, and names are kept. -/
theorem Rule.name_mono {r r' : Registry κ} {c p : Multiset (Token κ)}
    (h : Rule L r c r' p) :
    r.created ≤ r'.created ∧ ∀ e < r.created, r'.name e = r.name e := by
  rcases h.entries_cases with ⟨_, hc, hn⟩ | ⟨n, _, _, rfl⟩ | ⟨n, e, _, _, rfl⟩ |
    ⟨n, e, _, _, rfl⟩ | ⟨es, _, _, rfl⟩
  · exact ⟨hc.ge, fun e _ => by rw [hn]⟩
  · refine ⟨Nat.le_succ _, fun e he => ?_⟩
    exact Function.update_of_ne (Nat.ne_of_lt he) _ _
  all_goals exact ⟨Nat.le_refl _, fun _ _ => rfl⟩

/-- What a step produces is right if what it consumes was. -/
theorem Rule.sound_produced {r r' : Registry κ} {c p : Multiset (Token κ)}
    (h : Rule L r c r' p) (hc : ∀ t ∈ c, t.Sound r)
    (hlink : ∀ {n e}, r.entries.lookup n = some e → e < r.created ∧ r.name e = n) :
    ∀ t ∈ p, t.Sound r' := by
  cases h with
  | lookup hl | lookupTake hl => simpa [Token.Sound] using hlink hl
  | collect hl => simpa [Token.Sound] using (hlink hl).1
  | insert => simp [Token.Sound, Registry.insertNew]
  | @clear es =>
    simp only [Multiset.mem_cons, Multiset.mem_map, forall_eq_or_imp] at hc ⊢
    refine ⟨trivial, ?_⟩
    rintro t ⟨e, he, rfl⟩
    exact hc.2 (collected e) ⟨e, he, rfl⟩
  | _ =>
    simp_all [Token.Sound, Registry.setTenantSlots, Registry.setStage, Registry.setWord,
      Registry.recordStart]

theorem Sound.step (h : Sound x) (hs : Step L allowed x x') : Sound x' := by
  obtain ⟨c, p, hrule, hrw, _, _⟩ := hs
  have hmono := hrule.name_mono
  refine ⟨?_, ?_, ?_⟩
  · intro n e hl
    rcases hrule.entries_cases with ⟨he, hc, hn⟩ | ⟨m, _, _, he⟩ | ⟨m, j, _, _, he⟩ |
      ⟨m, j, _, _, he⟩ | ⟨es, _, _, he⟩
    · rw [he] at hl
      rw [hc, hn]
      exact h.linked hl
    · rw [he] at hl ⊢
      rw [Registry.insertNew, lookup_insert_of] at hl
      split at hl
      · rename_i hnm
        obtain rfl := Option.some.inj hl
        simp [Registry.insertNew, hnm]
      · have hold := h.linked hl
        have hne : e ≠ x.registry.created := Nat.ne_of_lt hold.1
        refine ⟨Nat.lt_succ_of_lt hold.1, ?_⟩
        exact (Function.update_of_ne hne _ _).trans hold.2
    · rw [he] at hl ⊢
      exact h.linked (lookup_of_lookup_erase hl).2
    · rw [he] at hl ⊢
      exact h.linked (lookup_of_lookup_eraseIf hl).1
    · rw [he] at hl
      exact absurd hl (by simp)
  · intro t ht
    rcases hrw.mem_cases ht with ht | ht
    · exact (h.tokens t ht).mono hmono.1 hmono.2
    · exact hrule.sound_produced (fun u hu => h.tokens u (hrw.mem_of_consumed hu)) h.linked t ht
  · intro e he
    rcases hrule.word_frame e with hw | ⟨rfl, hc⟩ | ⟨t, ht, hte⟩
    · rw [hw]
      exact h.fresh e (by omega)
    · omega
    · have := (h.tokens t (hrw.mem_of_consumed ht)).lt hte
      omega

/-! ## The word counts the leases -/

/-- The word of every resource is an honest account of its leases. -/
def Balanced (L : Limits) (x : Config κ) : Prop :=
  ∀ e, Counts L.top (x.registry.word e) (x.leases e)

omit [DecidableEq κ] in
theorem leases_knowledge (e : Nat) (t : Token κ) (ht : t.Knowledge) : t.leases e = false := by
  cases t <;> first | rfl | exact ht.elim

theorem Balanced.step (h : Balanced L x) (hsound : Sound x) (hs : Step L allowed x x') :
    Balanced L x' := by
  obtain ⟨c, p, hrule, hrw, hlt, _⟩ := hs
  intro e
  have hbal : x'.leases e + count (leases e) c = x.leases e + count (leases e) p :=
    hrw.count_balance (leases_knowledge e)
  have hle : count (leases e) c ≤ x.leases e := hrw.count_consumed_le
  rcases hrule.word_cases e with ⟨hw, hc⟩ | ⟨htop, hw, hc⟩ | ⟨hw, hc⟩ | ⟨h0, hw, hc, _⟩ |
    ⟨rfl, hw, _, hc⟩
  · rw [hw, show x'.leases e = x.leases e by omega]
    exact h e
  · have hn : x'.leases e = x.leases e + 1 := by omega
    rw [hw, hn]
    exact (h e).acquire htop (hn ▸ hlt e)
  · have hn : x.leases e = x'.leases e + 1 := by omega
    rw [hw]
    exact (hn ▸ h e).release
  · rw [hw, show x'.leases e = x.leases e by omega]
    exact (h0 ▸ h e).close
  · have hnone : x.leases x.registry.created = 0 :=
      hsound.count_eq_zero (fun t ht => by cases t <;> simp_all [leases, resource]) le_rfl
    rw [hw, show x'.leases x.registry.created = 0 by omega]
    exact .counting L.top_pos

/-- A closed word stays closed. -/
theorem Balanced.closed_stays (h : Balanced L x) (hsound : Sound x)
    (hs : Step L allowed x x') {e : Nat} (he : x.registry.word e = L.top) :
    x'.registry.word e = L.top := by
  obtain ⟨c, p, hrule, hrw, _, _⟩ := hs
  have hle : count (leases e) c ≤ x.leases e := hrw.count_consumed_le
  have hnone := (h e).of_closed he
  rcases hrule.word_cases e with ⟨hw, _⟩ | ⟨htop, _⟩ | ⟨_, hc⟩ | ⟨_, hw, _⟩ | ⟨rfl, _⟩
  · rw [hw, he]
  · exact absurd he htop
  · omega
  · exact hw
  · have := hsound.fresh x.registry.created le_rfl
    have := L.top_pos
    omega

/-! ## The admission guard -/

/-- The guard is owned once while the mutex is locked, and what its owner knows
about the bindings is true. -/
structure Guarded (L : Limits) (x : Config κ) : Prop where
  owned : count isGuard x.pool = x.registry.locked.toNat
  vacant : ∀ n, guard (.vacant n) ∈ x.pool → x.registry.entries.lookup n = none
  room : ∀ n, guard (.room n) ∈ x.pool →
    x.registry.entries.lookup n = none ∧ size x.registry.entries < L.capacity
  size_le : size x.registry.entries ≤ L.capacity

omit [DecidableEq κ] in
theorem isGuard_knowledge (t : Token κ) (ht : t.Knowledge) : t.isGuard = false := by
  cases t <;> first | rfl | exact ht.elim

/-- What the owner of the guard knows after a step it knew before, or has just
read. -/
theorem Rule.guard_produced {r r' : Registry κ} {c p : Multiset (Token κ)}
    (h : Rule L r c r' p) {g : Guard κ} (hg : guard g ∈ p) :
    g = .held ∨ (∃ n, g = .vacant n ∧ r' = r ∧ r.entries.lookup n = none) ∨
    (∃ n, g = .room n ∧ r' = r ∧ guard (.vacant n) ∈ c ∧ size r.entries < L.capacity) := by
  cases h with
  | @findVacant n hl =>
    obtain rfl : g = .vacant n := by simpa using hg
    exact Or.inr (Or.inl ⟨n, rfl, rfl, hl⟩)
  | @findRoom n hl =>
    obtain rfl : g = .room n := by simpa using hg
    exact Or.inr (Or.inr ⟨n, rfl, rfl, by simp, hl⟩)
  | lock | refuse | insert => exact Or.inl (by simpa using hg)
  | _ => simp at hg

/-- What the owner of the guard knows after a step was true before it. -/
theorem Guarded.known (h : Guarded L x) {c p : Multiset (Token κ)}
    (hrule : Rule L x.registry c x'.registry p)
    (hrw : Rewrites Knowledge x.pool c p x'.pool) :
    (∀ n, guard (.vacant n) ∈ x'.pool → x.registry.entries.lookup n = none) ∧
    (∀ n, guard (.room n) ∈ x'.pool →
      x.registry.entries.lookup n = none ∧ size x.registry.entries < L.capacity) := by
  constructor
  · intro n hn
    rcases hrw.mem_cases hn with hn | hn
    · exact h.vacant n hn
    · rcases hrule.guard_produced hn with hg | ⟨m, hg, _, hl⟩ | ⟨m, hg, _⟩
      · exact absurd hg (by simp)
      · obtain rfl := Guard.vacant.inj hg
        exact hl
      · exact absurd hg (by simp)
  · intro n hn
    rcases hrw.mem_cases hn with hn | hn
    · exact h.room n hn
    · rcases hrule.guard_produced hn with hg | ⟨m, hg, _⟩ | ⟨m, hg, _, hv, hsize⟩
      · exact absurd hg (by simp)
      · exact absurd hg (by simp)
      · obtain rfl := Guard.room.inj hg
        exact ⟨h.vacant n (hrw.mem_of_consumed hv), hsize⟩

theorem Guarded.step (h : Guarded L x) (hs : Step L allowed x x') : Guarded L x' := by
  obtain ⟨c, p, hrule, hrw, _, _⟩ := hs
  have hbal := hrw.count_balance isGuard_knowledge
  have hle : count isGuard c ≤ count isGuard x.pool := hrw.count_consumed_le
  have hone : count isGuard x.pool ≤ 1 := by
    rw [h.owned]
    exact Bool.toNat_le _
  have howned : count isGuard x'.pool = x'.registry.locked.toNat := by
    have := h.owned
    rcases hrule.locked_balance with hlock | ⟨hfree, rfl⟩
    · omega
    · simp [isGuard, hfree] at this hle
      omega
  obtain ⟨hvacant, hroom⟩ := h.known hrule hrw
  -- A step that binds nothing keeps what is known.
  have hshrink (hnone : ∀ n, x.registry.entries.lookup n = none →
      x'.registry.entries.lookup n = none)
      (hsize : size x'.registry.entries ≤ size x.registry.entries) : Guarded L x' :=
    ⟨howned, fun n hn => hnone n (hvacant n hn),
      fun n hn => ⟨hnone n (hroom n hn).1, Nat.lt_of_le_of_lt hsize (hroom n hn).2⟩,
      Nat.le_trans hsize h.size_le⟩
  rcases hrule.entries_cases with ⟨he, _⟩ | ⟨n, rfl, rfl, he⟩ | ⟨n, e, _, _, he⟩ |
    ⟨n, e, _, _, he⟩ | ⟨es, _, _, he⟩
  · exact hshrink (fun n hn => by rw [he, hn]) (by rw [he])
  · -- The only guard left is the one that the insertion gave back.
    have hheld (g : Guard κ) (hg : guard g ∈ x'.pool) : g = .held := by
      have hmem := hrw.mem_produced_of_unique hone
        (Multiset.mem_singleton_self _) rfl hg rfl
      simpa using hmem
    obtain ⟨hnone, hsize⟩ := h.room n (hrw.mem_of_consumed (Multiset.mem_singleton_self _))
    refine ⟨howned, fun m hm => absurd (hheld _ hm) (by simp),
      fun m hm => absurd (hheld _ hm) (by simp), ?_⟩
    rw [he]
    exact (size_insert hnone).le.trans hsize
  · refine hshrink (fun m hm => ?_) ?_
    · rw [he, lookup_erase_of, hm, ite_self]
    · rw [he]
      exact size_erase_le _ _
  · refine hshrink (fun m hm => ?_) ?_
    · rw [he, lookup_eraseIf_of, hm, ite_self]
    · rw [he]
      exact size_eraseIf_le _ _ _
  · exact hshrink (fun m _ => by rw [he]; rfl) (by rw [he]; exact Nat.zero_le _)

/-! ## Permits -/

/-- A permit is in its semaphore or owned by an agent. -/
structure Conserved (L : Limits) (x : Config κ) : Prop where
  slots : x.registry.slots + count isSlot x.pool = L.slots
  tenantSlots : ∀ e < x.registry.created,
    x.registry.tenantSlots e + count (isTenantSlot e) x.pool = L.tenantSlots

omit [DecidableEq κ] in
theorem isSlot_knowledge (t : Token κ) (ht : t.Knowledge) : t.isSlot = false := by
  cases t <;> first | rfl | exact ht.elim

omit [DecidableEq κ] in
theorem isTenantSlot_knowledge (e : Nat) (t : Token κ) (ht : t.Knowledge) :
    t.isTenantSlot e = false := by
  cases t <;> first | rfl | exact ht.elim

theorem Conserved.step (h : Conserved L x) (hsound : Sound x) (hs : Step L allowed x x') :
    Conserved L x' := by
  obtain ⟨c, p, hrule, hrw, _, _⟩ := hs
  constructor
  · have hbal := hrw.count_balance isSlot_knowledge
    have hslots := hrule.slots_balance
    have := h.slots
    omega
  · intro e he
    have hbal := hrw.count_balance (isTenantSlot_knowledge e)
    rcases hrule.tenantSlots_cases e with ⟨hold, hslots⟩ | ⟨rfl, hnew, hc⟩
    · have := h.tenantSlots e (hold he)
      omega
    · have hnone : count (isTenantSlot x.registry.created) x.pool = 0 :=
        hsound.count_eq_zero (fun t ht => by cases t <;> simp_all [isTenantSlot, resource]) le_rfl
      omega

/-! ## Closed resources are on their way out -/

/-- A linked and closed resource is about to be unlinked, and what the shutdown
has collected is not linked any more. -/
structure Sealed (L : Limits) (x : Config κ) : Prop where
  removing : ∀ n e, x.registry.entries.lookup n = some e → x.registry.word e = L.top →
    Token.removing n e ∈ x.pool
  doomed : ∀ n e, Token.doomed e ∈ x.pool → x.registry.entries.lookup n ≠ some e

/-- A step binds no resource but the one that it creates. -/
theorem Rule.lookup_mono {r r' : Registry κ} {c p : Multiset (Token κ)}
    (h : Rule L r c r' p) {n : κ} {e : Nat} (hl : r'.entries.lookup n = some e) :
    r.entries.lookup n = some e ∨
      (e = r.created ∧ r' = r.insertNew L n ∧ c = {guard (.room n)}) := by
  rcases h.entries_cases with ⟨he, _⟩ | ⟨m, hc, _, he⟩ | ⟨m, j, _, _, he⟩ |
    ⟨m, j, _, _, he⟩ | ⟨es, _, _, he⟩
  · rw [he] at hl
    exact Or.inl hl
  · rw [he, Registry.insertNew, lookup_insert_of] at hl
    split at hl
    · rename_i hnm
      subst hnm
      exact Or.inr ⟨(Option.some.inj hl).symm, he, hc⟩
    · exact Or.inl hl
  · rw [he] at hl
    exact Or.inl (lookup_of_lookup_erase hl).2
  · rw [he] at hl
    exact Or.inl (lookup_of_lookup_eraseIf hl).1
  · rw [he] at hl
    exact absurd hl (by simp)

/-- A resource that was unlinked once is never linked again. -/
theorem unlinked_stays (hs : Step L allowed x x') {e : Nat}
    (he : e < x.registry.created) (hun : ¬ x.registry.Linked e) :
    e < x'.registry.created ∧ ¬ x'.registry.Linked e := by
  obtain ⟨c, p, hrule, _, _, _⟩ := hs
  refine ⟨Nat.lt_of_lt_of_le he hrule.name_mono.1, ?_⟩
  rintro ⟨n, hl⟩
  rcases hrule.lookup_mono hl with hl | ⟨rfl, _⟩
  · exact hun ⟨n, hl⟩
  · exact Nat.lt_irrefl _ he

/-- An agent that does not hold the guard over a name, does not unlink its
resource and does not shut down leaves the binding of the name alone. -/
theorem Moves.lookup_kept {r r' : Registry κ} {T T' : Multiset (Token κ)}
    (h : Moves L r T r' T') {n : κ} {e : Nat} (hl : r.entries.lookup n = some e)
    (hroom : guard (.room n) ∉ T) (hremoving : ∀ j, Token.removing n j ∉ T)
    (hfailing : Token.lease e (.failing n) ∉ T) (hshutdown : Token.shutdown ∉ T) :
    r'.entries.lookup n = some e := by
  obtain ⟨c, p, hrule, hrw⟩ := h
  rcases hrule.entries_cases with ⟨hkept, _⟩ | ⟨m, rfl, _, rfl⟩ | ⟨m, j, rfl, _, rfl⟩ |
    ⟨m, j, rfl, _, rfl⟩ | ⟨es, rfl, _⟩
  · rwa [hkept]
  · have hne : n ≠ m := by
      rintro rfl
      exact hroom (hrw.mem_of_consumed (Multiset.mem_singleton_self _))
    exact (AList.lookup_insert_ne hne).trans hl
  · have hne : n ≠ m := by
      rintro rfl
      exact hremoving j (hrw.mem_of_consumed (Multiset.mem_singleton_self _))
    exact (AList.lookup_erase_ne hne).trans hl
  · change (eraseIf r.entries m j).lookup n = some e
    rw [lookup_eraseIf_of, if_neg, hl]
    rintro ⟨rfl, hj⟩
    obtain rfl := Option.some.inj (hl.symm.trans hj)
    exact hfailing (hrw.mem_of_consumed (Multiset.mem_singleton_self _))
  · exact absurd (hrw.mem_of_consumed (Multiset.mem_cons_self _ _)) hshutdown

theorem Rule.of_removing_consumed {r r' : Registry κ} {c p : Multiset (Token κ)}
    (h : Rule L r c r' p) {n : κ} {e : Nat} (hc : Token.removing n e ∈ c) :
    p = {due e} ∧ r' = { r with entries := r.entries.erase n } := by
  cases h with
  | @remove m j =>
    obtain ⟨rfl, rfl⟩ : n = m ∧ e = j := by simpa using hc
    exact ⟨rfl, rfl⟩
  | @clear es => simp at hc
  | _ => simp at hc

theorem Rule.of_doomed_produced {r r' : Registry κ} {c p : Multiset (Token κ)}
    (h : Rule L r c r' p) {e : Nat} (hp : Token.doomed e ∈ p) : r'.entries = ∅ := by
  cases h with
  | @clear es => rfl
  | _ => simp at hp

/-- A step closes a word only for an agent of `take`, or for the shutdown. -/
theorem Step.closed_cases (hs : Step L allowed x x') (hsound : Sound x) (hbal : Balanced L x)
    {e : Nat} (he : x'.registry.word e = L.top) :
    x.registry.word e = L.top ∨ (∃ n, taking n e ∈ x.pool ∧ Token.removing n e ∈ x'.pool) ∨
      Token.doomed e ∈ x.pool := by
  have hnone : x'.leases e = 0 := (hbal.step hsound hs e).of_closed he
  obtain ⟨c, p, hrule, hrw, _, _⟩ := hs
  have hcount : x'.leases e + count (leases e) c = x.leases e + count (leases e) p :=
    hrw.count_balance (leases_knowledge e)
  rcases hrule.word_cases e with ⟨hw, _⟩ | ⟨_, _, hc⟩ | ⟨hw, hc⟩ | ⟨_, _, _, hclose⟩ |
    ⟨_, hw, _⟩
  · exact Or.inl (hw ▸ he)
  · omega
  · -- The last lease is dropped, and the word goes from one to zero.
    have hone : x.leases e = 1 := by omega
    have hw1 := ((hbal e).of_pos (by omega)).1
    have htop := L.top_pos
    rw [hone] at hw1
    rw [hw1, fetchSub_succ htop] at hw
    omega
  · rcases hclose with ⟨n, rfl, rfl⟩ | hd
    · exact Or.inr (Or.inl ⟨n, hrw.mem_of_consumed (Multiset.mem_singleton_self _),
        hrw.mem_of_produced (Multiset.mem_singleton_self _)⟩)
    · exact Or.inr (Or.inr (hrw.mem_of_consumed hd))
  · have := L.top_pos
    omega

theorem Sealed.step (h : Sealed L x) (hsound : Sound x) (hbal : Balanced L x)
    (hs : Step L allowed x x') : Sealed L x' := by
  have hclosed := @Step.closed_cases _ _ _ _ _ _ hs hsound hbal
  obtain ⟨c, p, hrule, hrw, _, _⟩ := hs
  constructor
  · intro n e hl' hw'
    rcases hrule.lookup_mono hl' with hl | ⟨rfl, hr, _⟩
    · rcases hclosed hw' with hw | ⟨m, htake, hrem⟩ | hd
      · apply hrw.mem_of_kept (h.removing n e hl hw) id
        intro hc
        rw [(hrule.of_removing_consumed hc).2, lookup_erase_of, if_pos rfl] at hl'
        exact absurd hl' (by simp)
      · have hm : x.registry.name e = m := (hsound.tokens _ htake).2
        have hn : x.registry.name e = n := (hsound.linked hl).2
        rwa [← hn, hm]
      · exact absurd hl (h.doomed n e hd)
    · have htop := L.top_pos
      rw [hr] at hw'
      simp [Registry.insertNew] at hw'
      omega
  · intro n e hd hl'
    rcases hrw.mem_cases hd with hd | hd
    · rcases hrule.lookup_mono hl' with hl | ⟨rfl, _⟩
      · exact h.doomed n e hd hl
      · exact absurd (hsound.tokens _ hd) (Nat.lt_irrefl _)
    · rw [hrule.of_doomed_produced hd] at hl'
      exact absurd hl' (by simp)

/-! ## All of them -/

/-- What every run keeps. -/
structure Inv (L : Limits) (x : Config κ) : Prop where
  sound : Sound x
  balanced : Balanced L x
  guarded : Guarded L x
  conserved : Conserved L x
  sealing : Sealed L x

theorem Inv.init (L : Limits) (blank : κ) : Inv L ⟨.init L blank, 0⟩ where
  sound := ⟨fun hl => absurd hl (by simp [Registry.init]),
    fun t ht => absurd ht (Multiset.notMem_zero t), fun _ _ => rfl⟩
  balanced := fun _ => .counting L.top_pos
  guarded := ⟨rfl, fun _ hn => absurd hn (Multiset.notMem_zero _),
    fun _ hn => absurd hn (Multiset.notMem_zero _), Nat.zero_le _⟩
  conserved := ⟨rfl, fun _ he => absurd he (Nat.not_lt_zero _)⟩
  sealing := ⟨fun n e hl => absurd hl (by simp [Registry.init]),
    fun _ _ hd => absurd hd (Multiset.notMem_zero _)⟩

theorem Inv.step (h : Inv L x) (hs : Step L allowed x x') : Inv L x' where
  sound := h.sound.step hs
  balanced := h.balanced.step h.sound hs
  guarded := h.guarded.step hs
  conserved := h.conserved.step h.sound hs
  sealing := h.sealing.step h.sound h.balanced hs

/-- The configurations of the runs whose steps are all allowed. -/
def Reachable (L : Limits) (allowed : Config κ → Multiset (Token κ) → Config κ → Prop)
    (blank : κ) (x : Config κ) : Prop :=
  Relation.ReflTransGen (Step L allowed) ⟨.init L blank, 0⟩ x

/-- The run rule: what holds at the start and what every allowed step keeps. -/
theorem Reachable.invariant {blank : κ} {I : Config κ → Prop}
    (h : Reachable L allowed blank x) (h0 : I ⟨.init L blank, 0⟩)
    (hstep : ∀ x x', Inv L x → I x → Step L allowed x x' → I x') : Inv L x ∧ I x := by
  induction h with
  | refl => exact ⟨Inv.init L blank, h0⟩
  | tail _ hs ih => exact ⟨ih.1.step hs, hstep _ _ ih.1 ih.2 hs⟩

theorem Reachable.inv {blank : κ} (h : Reachable L allowed blank x) : Inv L x :=
  (h.invariant (I := fun _ => True) trivial fun _ _ _ _ _ => trivial).1

end Tinkiva.Protocol
