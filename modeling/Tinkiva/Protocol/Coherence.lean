import Tinkiva.Protocol.Closing

/-!
# Coherence of leases, and one writer per name

Two things that hold in every run in which no failed open pulls a resource away
from another caller.

`CleanUnlink` is that condition on a step: when a caller whose open failed
unlinks the resource, nobody else has it looked up, to lease it or to close it.
Under it `Coherent` is an invariant: a resource that a caller has looked up is
still linked under the name, or its word is closed and the lease will be
refused.

`UnopenedUnlink` adds that nobody has opened the resource meanwhile.  Then a
resource that is not closed and not unopened is linked, so a name has at most
one of them: `SingleWriter`.
-/

namespace Tinkiva.Protocol

open ConcurrentMap TokenPool SentinelCounter Token

variable {κ : Type} [DecidableEq κ] {L : Limits} {x x' : Config κ}
  {allowed : Config κ → Multiset (Token κ) → Config κ → Prop}

/-- A failed open unlinks only what nobody else has looked up. -/
def CleanUnlink (x : Config κ) (c : Multiset (Token κ)) (x' : Config κ) : Prop :=
  Token.shutdown ∉ x'.pool ∧ ∀ n e, Token.lease e (.failing n) ∈ c →
    acquiring n e ∉ x.pool ∧ taking n e ∉ x.pool

/-- What a caller has looked up is linked, or it is closed for good. -/
structure Coherent (L : Limits) (x : Config κ) : Prop where
  acquiring : ∀ n e, Token.acquiring n e ∈ x.pool →
    x.registry.entries.lookup n = some e ∨ x.registry.word e = L.top
  taking : ∀ n e, Token.taking n e ∈ x.pool →
    x.registry.entries.lookup n = some e ∨ x.registry.word e = L.top
  removing : ∀ n e, Token.removing n e ∈ x.pool → x.registry.entries.lookup n = some e

theorem Rule.of_acquiring_produced {r r' : Registry κ} {c p : Multiset (Token κ)}
    (h : Rule L r c r' p) {n : κ} {e : Nat} (hp : Token.acquiring n e ∈ p) :
    Token.acquiring n e ∈ c ∨ r'.entries.lookup n = some e := by
  cases h with
  | @lookup m j hl =>
    obtain ⟨rfl, rfl⟩ : n = m ∧ e = j := by simpa using hp
    exact Or.inr hl
  | @insert m =>
    obtain ⟨rfl, rfl⟩ : n = m ∧ e = r.created := by simpa using hp
    exact Or.inr (AList.lookup_insert _)
  | lease | openStart | takeTenantSlot => simp_all
  | clear => simp at hp
  | _ => simp at hp

theorem Rule.of_taking_produced {r r' : Registry κ} {c p : Multiset (Token κ)}
    (h : Rule L r c r' p) {n : κ} {e : Nat} (hp : Token.taking n e ∈ p) :
    r'.entries.lookup n = some e := by
  cases h with
  | @lookupTake m j hl =>
    obtain ⟨rfl, rfl⟩ : n = m ∧ e = j := by simpa using hp
    exact hl
  | clear => simp at hp
  | _ => simp at hp

theorem Rule.of_removing_produced {r r' : Registry κ} {c p : Multiset (Token κ)}
    (h : Rule L r c r' p) {n : κ} {e : Nat} (hp : Token.removing n e ∈ p) :
    r.word e = 0 ∧ Token.taking n e ∈ c ∧ r'.entries = r.entries := by
  cases h with
  | @beginClose m j hw =>
    obtain ⟨rfl, rfl⟩ : n = m ∧ e = j := by simpa using hp
    exact ⟨hw, Multiset.mem_singleton_self _, rfl⟩
  | clear => simp at hp
  | _ => simp at hp

section Step

variable (h : Coherent L x) (hinv : Inv L x)
  {c p : Multiset (Token κ)} (hrule : Rule L x.registry c x'.registry p)
  (hrw : Rewrites Knowledge x.pool c p x'.pool) (hbefore : Token.shutdown ∉ x'.pool)

include h hinv hrule hrw hbefore in
/-- A binding outlives a step, unless the resource was closed by the agent that
removes it, or a failed open removes it. -/
theorem Coherent.bound_step {n : κ} {e : Nat}
    (hl : x.registry.entries.lookup n = some e) :
    x'.registry.entries.lookup n = some e ∨ Token.removing n e ∈ c ∨
      Token.lease e (.failing n) ∈ c := by
  rcases hrule.entries_cases with ⟨he, _⟩ | ⟨m, rfl, rfl, he⟩ | ⟨m, j, rfl, _, he⟩ |
    ⟨m, j, rfl, _, he⟩ | ⟨es, rfl, rfl, he⟩
  · rw [he]
    exact Or.inl hl
  · -- The name of a new resource was vacant.
    have hnone := (hinv.guarded.room m (hrw.mem_of_consumed
      (Multiset.mem_singleton_self _))).1
    left
    rw [he, Registry.insertNew, lookup_insert_of, if_neg, hl]
    rintro rfl
    rw [hnone] at hl
    exact absurd hl (by simp)
  · -- `remove` goes by name, and the name is bound to the resource it closed.
    have hmem : Token.removing m j ∈ x.pool :=
      hrw.mem_of_consumed (Multiset.mem_singleton_self _)
    by_cases hnm : n = m
    · subst hnm
      obtain rfl : j = e := Option.some.inj ((h.removing n j hmem).symm.trans hl)
      exact Or.inr (Or.inl (Multiset.mem_singleton_self _))
    · left
      rw [he, lookup_erase_of, if_neg hnm, hl]
  · by_cases hnm : n = m ∧ j = e
    · obtain ⟨rfl, rfl⟩ := hnm
      exact Or.inr (Or.inr (Multiset.mem_singleton_self _))
    · left
      rw [he, lookup_eraseIf_of, if_neg, hl]
      rintro ⟨rfl, hj⟩
      exact hnm ⟨rfl, Option.some.inj (hj.symm.trans hl)⟩
  · exact absurd (by simp) (no_shutdown_consumed hbefore hrule hrw)

end Step

theorem Coherent.step (h : Coherent L x) (hord : Orderly L x) (hinv : Inv L x)
    (hs : Step L CleanUnlink x x') : Coherent L x' := by
  have hstays {e} := hinv.balanced.closed_stays hinv.sound hs (e := e)
  obtain ⟨c, p, hrule, hrw, _, hbefore, hclean⟩ := hs
  have hbound {n e} := h.bound_step hinv hrule hrw hbefore (n := n) (e := e)
  -- What was linked or closed is linked or closed, unless a failed open took it.
  have hgood {n e} (hgood : x.registry.entries.lookup n = some e ∨ x.registry.word e = L.top)
      (hfail : Token.lease e (.failing n) ∉ c) :
      x'.registry.entries.lookup n = some e ∨ x'.registry.word e = L.top := by
    rcases hgood with hl | hw
    · rcases hbound hl with hl | hc | hc
      · exact Or.inl hl
      · exact Or.inr (hstays (hord.closed_of_closes (hrw.mem_of_consumed hc)
          (by simp [closes])))
      · exact absurd hc hfail
    · exact Or.inr (hstays hw)
  constructor
  · intro n e ht
    have hold : Token.acquiring n e ∈ x.pool ∨ x'.registry.entries.lookup n = some e := by
      rcases hrw.mem_cases ht with hold | hp
      · exact Or.inl hold
      · exact (hrule.of_acquiring_produced hp).imp_left hrw.mem_of_consumed
    rcases hold with hold | hl
    · exact hgood (h.acquiring n e hold) fun hc => (hclean n e hc).1 hold
    · exact Or.inl hl
  · intro n e ht
    rcases hrw.mem_cases ht with hold | hp
    · exact hgood (h.taking n e hold) fun hc => (hclean n e hc).2 hold
    · exact Or.inl (hrule.of_taking_produced hp)
  · intro n e ht
    rcases hrw.mem_cases ht with hold | hp
    · have hw := hord.closed_of_closes hold (e := e) (by simp [closes])
      rcases hbound (h.removing n e hold) with hl | hc | hc
      · exact hl
      · -- The duty to close is owned once, and this step has used it.
        have hone : count (closes e) x.pool ≤ 1 := by
          have := hord.starts e
          split at this <;> omega
        have hp := hrw.mem_produced_of_unique hone hc (by simp [closes]) ht (by simp [closes])
        rw [(hrule.of_removing_consumed hc).1] at hp
        exact absurd hp (by simp)
      · -- A caller that failed to open still holds its lease.
        have hpos : 0 < x.leases e :=
          count_pos_of_mem (hrw.mem_of_consumed hc) (by simp [leases])
        exact absurd hw ((hinv.balanced e).of_pos hpos).2
    · obtain ⟨hw, htake, he⟩ := hrule.of_removing_produced hp
      rw [he]
      rcases h.taking n e (hrw.mem_of_consumed htake) with hl | hw'
      · exact hl
      · have := L.top_pos
        omega

theorem Coherent.init (L : Limits) (blank : κ) : Coherent L ⟨.init L blank, 0⟩ where
  acquiring := fun _ _ ht => absurd ht (Multiset.notMem_zero _)
  taking := fun _ _ ht => absurd ht (Multiset.notMem_zero _)
  removing := fun _ _ ht => absurd ht (Multiset.notMem_zero _)

/-! ## One writer per name -/

/-- A failed open unlinks only what nobody else has looked up and nobody has
opened. -/
def UnopenedUnlink (x : Config κ) (c : Multiset (Token κ)) (x' : Config κ) : Prop :=
  CleanUnlink x c x' ∧ ∀ n e, Token.lease e (.failing n) ∈ c →
    x.registry.stage e = .unopened

/-- A resource that is open, or being opened, and not closed is the one that
its name is bound to. -/
def SingleWriter (L : Limits) (x : Config κ) : Prop :=
  ∀ e < x.registry.created, x.registry.word e ≠ L.top → x.registry.stage e ≠ .unopened →
    x.registry.entries.lookup (x.registry.name e) = some e

theorem Step.mono {allowed' : Config κ → Multiset (Token κ) → Config κ → Prop}
    (himp : ∀ x c x', allowed x c x' → allowed' x c x') (hs : Step L allowed x x') :
    Step L allowed' x x' := by
  obtain ⟨c, p, hrule, hrw, hlt, hall⟩ := hs
  exact ⟨c, p, hrule, hrw, hlt, himp _ _ _ hall⟩

theorem SingleWriter.step (h : SingleWriter L x) (hcoh : Coherent L x) (hord : Orderly L x)
    (hinv : Inv L x) (hs : Step L UnopenedUnlink x x') : SingleWriter L x' := by
  have hstays {e} := hinv.balanced.closed_stays hinv.sound hs (e := e)
  obtain ⟨c, p, hrule, hrw, _, ⟨hbefore, _⟩, hunopened⟩ := hs
  intro e he hw' hst'
  have hw : x.registry.word e ≠ L.top := fun hw => hw' (hstays hw)
  -- A new resource is unopened, so this one existed before.
  have hold : e < x.registry.created := by
    rcases hrule.entries_cases with ⟨_, hc, _⟩ | ⟨n, _, _, hr⟩ | ⟨n, j, _, _, hr⟩ |
      ⟨n, j, _, _, hr⟩ | ⟨es, _, _, hr⟩
    · omega
    · rw [hr] at he hst'
      by_contra hge
      obtain rfl : e = x.registry.created := by
        simp only [Registry.insertNew] at he
        omega
      exact hst' (by simp [Registry.insertNew])
    all_goals
      rw [hr] at he
      exact he
  rw [hrule.name_mono.2 e hold]
  -- Its stage is kept, or its opening starts.
  have hlinked : x.registry.entries.lookup (x.registry.name e) = some e ∧
      ∀ n, Token.lease e (.failing n) ∉ c := by
    by_cases hst : x.registry.stage e = .unopened
    · rcases hrule.stage_cases e with ⟨heq, _⟩ | ⟨_, _, n, rfl, _⟩ | ⟨_, rfl, _⟩ |
        ⟨hun, _⟩ | ⟨_, hcl, _⟩ | ⟨_, hun, _⟩ | hsh
      · exact absurd (heq.trans hst) hst'
      · -- The open starts under a lease on what was looked up.
        have hmem : Token.acquiring n e ∈ x.pool := hrw.mem_of_consumed (by simp)
        rw [(hinv.sound.tokens _ hmem).2]
        exact ⟨(hcoh.acquiring n e hmem).resolve_right hw, by simp⟩
      · have := hord.opening_of_opens (hrw.mem_of_consumed (Multiset.mem_singleton_self _))
          (e := e) (by simp [opens])
        rw [hst] at this
        exact absurd this (by simp)
      · exact absurd hun hst'
      · exact absurd (hord.closing e (hrw.mem_of_consumed hcl)) hw
      · exact absurd hun hst'
      · exact absurd hsh (no_shutdown_consumed hbefore hrule hrw)
    · exact ⟨h e hold hw hst, fun n hc => hst (hunopened n e hc)⟩
  rcases hcoh.bound_step hinv hrule hrw hbefore hlinked.1 with hl | hc | hc
  · exact hl
  · exact absurd (hord.closed_of_closes (hrw.mem_of_consumed hc) (by simp [closes])) hw
  · exact absurd hc (hlinked.2 _)

end Tinkiva.Protocol
