import Mathlib.Logic.Relation

/-!
# Waiting without a circle

Agents that wait for one another.  `waits i j` says that agent `i` cannot move
before agent `j` has moved.  A rank that goes down along every wait excludes a
circle of waits, and it ends every chain of waits at an agent that waits for
nobody.
-/

namespace WaitFor

variable {ι : Type*} {waits : ι → ι → Prop} {rank : ι → Nat}

/-- Along a chain of waits the rank goes down. -/
theorem rank_lt_of_chain (hrank : ∀ i j, waits i j → rank j < rank i) {i j : ι}
    (h : Relation.TransGen waits i j) : rank j < rank i := by
  induction h with
  | single hij => exact hrank _ _ hij
  | tail _ hjk ih => exact Nat.lt_trans (hrank _ _ hjk) ih

/-- Nobody waits for itself through others. -/
theorem no_circle (hrank : ∀ i j, waits i j → rank j < rank i) (i : ι) :
    ¬ Relation.TransGen waits i i :=
  fun h => Nat.lt_irrefl _ (rank_lt_of_chain hrank h)

/-- From every agent a chain of waits leads to one that is free, if everyone who is not
free waits for somebody. -/
theorem exists_free {alive free : ι → Prop} (hrank : ∀ i j, waits i j → rank j < rank i)
    (hwaits : ∀ i, alive i → ¬ free i → ∃ j, waits i j ∧ alive j) {i : ι} (hi : alive i) :
    ∃ j, Relation.ReflTransGen waits i j ∧ alive j ∧ free j := by
  induction hn : rank i using Nat.strongRecOn generalizing i with
  | ind n ih =>
    by_cases hfree : free i
    · exact ⟨i, .refl, hi, hfree⟩
    · obtain ⟨j, hij, hj⟩ := hwaits i hi hfree
      obtain ⟨k, hjk, hk⟩ := ih (rank j) (hn ▸ hrank i j hij) hj rfl
      exact ⟨k, .head hij hjk, hk⟩

end WaitFor
