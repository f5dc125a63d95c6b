import Tinkiva.Lib.TaskPool
import Mathlib.Algebra.Order.BigOperators.Group.Finset
import Mathlib.Data.Finset.Card
import Mathlib.Data.Finset.Insert
import Mathlib.Order.Interval.Finset.Nat

/-!
# The tasks that meet a test

A task keeps its index for ever, so the tasks that meet a test are a set of indices,
and two such sets of different moments can be compared.  `indices p ts` is that set.

A step moves one task.  `indices_update` says that the set stays if the test gives the
same answer for the task before and after the step, and `indices_update_insert` that it
gains the task if the test starts to hold.  `indices_append` and
`indices_append_singleton` say the same of new tasks.  `card_indices_split` counts the
tasks by a second test, and `card_le_mul_card` by the places that they have taken.
-/

namespace TaskPool

variable {τ : Type*} (p : τ → Bool)

/-- The indices of the tasks that meet a test. -/
def indices (ts : List τ) : Finset Nat := {i ∈ Finset.range ts.length | (ts[i]?).any p}

variable {p} {ts : List τ} {i : Nat} {t t' : τ} {new : List τ}

theorem mem_indices : i ∈ indices p ts ↔ ∃ t, ts[i]? = some t ∧ p t = true := by
  rw [indices, Finset.mem_filter, Finset.mem_range, Option.any_eq_true]
  constructor
  · intro ⟨_, h⟩
    exact h
  · intro ⟨t, ht, hp⟩
    obtain ⟨hlt, _⟩ := List.getElem?_eq_some_iff.mp ht
    exact ⟨hlt, t, ht, hp⟩

@[simp] theorem indices_nil : indices p ([] : List τ) = ∅ := rfl

/-- Another index of the updated pool. -/
theorem mem_indices_update_ne {j : Nat} (hne : j ≠ i) (hnew : ∀ u ∈ new, p u = false) :
    j ∈ indices p (update ts i t' new) ↔ j ∈ indices p ts := by
  rw [mem_indices, mem_indices]
  constructor
  · rintro ⟨u, hu, hp⟩
    rcases Nat.lt_or_ge j ts.length with hlt | hge
    · rw [update, List.getElem?_append_left (by rwa [List.length_set]),
        List.getElem?_set_ne (Ne.symm hne)] at hu
      exact ⟨u, hu, hp⟩
    · rw [update, List.getElem?_append_right (by rwa [List.length_set])] at hu
      rw [hnew u (List.mem_of_getElem? hu)] at hp
      exact absurd hp Bool.false_ne_true
  · rintro ⟨u, hu, hp⟩
    exact ⟨u, getElem?_update_ne hne hu, hp⟩

/-- The index of the task that moved. -/
theorem mem_indices_update_self (hi : ts[i]? = some t) :
    i ∈ indices p (update ts i t' new) ↔ p t' = true := by
  rw [mem_indices, getElem?_update_self hi]
  simp

/-- The test gives the same answer for the task that moved. -/
theorem indices_update (hi : ts[i]? = some t) (hp : p t' = p t) (hnew : ∀ u ∈ new, p u = false) :
    indices p (update ts i t' new) = indices p ts := by
  ext j
  by_cases hji : j = i
  · subst hji
    rw [mem_indices_update_self hi, hp, mem_indices, hi]
    simp
  · exact mem_indices_update_ne hji hnew

/-- The test starts to hold of the task that moved. -/
theorem indices_update_insert (hi : ts[i]? = some t) (hp : p t' = true)
    (hnew : ∀ u ∈ new, p u = false) :
    indices p (update ts i t' new) = insert i (indices p ts) := by
  ext j
  rw [Finset.mem_insert]
  by_cases hji : j = i
  · subst hji
    rw [mem_indices_update_self hi]
    simp [hp]
  · rw [mem_indices_update_ne hji hnew]
    simp [hji]

theorem not_mem_indices (hi : ts[i]? = some t) (hp : p t = false) : i ∉ indices p ts := by
  rw [mem_indices, hi]
  simp [hp]

/-- New tasks that fail the test. -/
theorem indices_append (hnew : ∀ u ∈ new, p u = false) : indices p (ts ++ new) = indices p ts := by
  ext j
  rw [mem_indices, mem_indices]
  constructor
  · rintro ⟨u, hu, hp⟩
    rcases Nat.lt_or_ge j ts.length with hlt | hge
    · exact ⟨u, (List.getElem?_append_left hlt).symm.trans hu, hp⟩
    · rw [List.getElem?_append_right hge] at hu
      rw [hnew u (List.mem_of_getElem? hu)] at hp
      exact absurd hp Bool.false_ne_true
  · rintro ⟨u, hu, hp⟩
    obtain ⟨hlt, _⟩ := List.getElem?_eq_some_iff.mp hu
    exact ⟨u, (List.getElem?_append_left hlt).trans hu, hp⟩

/-- A new task that meets the test. -/
theorem indices_append_singleton (hp : p t = true) :
    indices p (ts ++ [t]) = insert ts.length (indices p ts) := by
  ext j
  rw [Finset.mem_insert, mem_indices, mem_indices]
  rcases Nat.lt_trichotomy j ts.length with hlt | rfl | hgt
  · rw [List.getElem?_append_left hlt]
    simp [Nat.ne_of_lt hlt]
  · simp [hp]
  · have hnone : ts[j]? = none := List.getElem?_eq_none (Nat.le_of_lt hgt)
    have hnone' : (ts ++ [t])[j]? = none := by
      apply List.getElem?_eq_none
      rw [List.length_append, List.length_singleton]
      omega
    simp [hnone, hnone', Nat.ne_of_gt hgt]

/-- There are as many indices as tasks that meet the test. -/
theorem card_indices : (indices p ts).card = ts.countP p := by
  induction ts using List.reverseRecOn with
  | nil => rfl
  | append_singleton ts t ih =>
    rw [List.countP_append, List.countP_singleton, ← ih]
    by_cases hp : p t = true
    · rw [indices_append_singleton hp, if_pos hp, Finset.card_insert_of_notMem]
      rw [mem_indices, List.getElem?_eq_none (Nat.le_refl _)]
      simp
    · have hnew : ∀ u ∈ [t], p u = false := by simpa using hp
      rw [indices_append hnew, if_neg hp, Nat.add_zero]

/-- A stronger test is met by fewer tasks. -/
theorem indices_subset {q : τ → Bool} (himp : ∀ t, p t = true → q t = true) :
    indices p ts ⊆ indices q ts := by
  intro j hj
  obtain ⟨t, ht, hp⟩ := mem_indices.mp hj
  exact mem_indices.mpr ⟨t, ht, himp t hp⟩

/-- Tests that agree on every task of the pool. -/
theorem indices_congr {q : τ → Bool} (heq : ∀ t ∈ ts, p t = q t) : indices p ts = indices q ts := by
  ext j
  rw [mem_indices, mem_indices]
  refine exists_congr fun t => and_congr_right fun ht => ?_
  rw [heq t (List.mem_of_getElem? ht)]

/-- A second test splits the tasks that meet the first. -/
theorem card_indices_split (p q : τ → Bool) (ts : List τ) :
    (indices (fun t => p t && q t) ts).card + (indices (fun t => p t && !q t) ts).card =
      (indices p ts).card := by
  rw [← Finset.card_filter_add_card_filter_not (s := indices p ts) (fun j => (ts[j]?).any q)]
  congr 2
  · ext j
    rw [Finset.mem_filter, mem_indices, mem_indices]
    cases ts[j]? with
    | none => simp
    | some t => simp
  · ext j
    rw [Finset.mem_filter, mem_indices, mem_indices]
    cases ts[j]? with
    | none => simp
    | some t => simp

/-- Each task that meets the test has a place, and at most `n` have the same one. -/
theorem card_le_mul_card {κ : Type*} [DecidableEq κ] (place : τ → Option κ) {places : Finset κ}
    (hplace : ∀ t ∈ ts, p t = true → ∃ k ∈ places, place t = some k) {n : Nat}
    (hn : ∀ k ∈ places, ts.countP (fun t => p t && decide (place t = some k)) ≤ n) :
    ts.countP p ≤ n * places.card := by
  rw [← card_indices, ← Finset.card_image_of_injective places (Option.some_injective κ)]
  refine Finset.card_le_mul_card_image_of_maps_to
    (f := fun i => (ts[i]?).bind place) (fun i hi => ?_) n fun o ho => ?_
  · obtain ⟨t, ht, hp⟩ := mem_indices.mp hi
    obtain ⟨k, hk, hplaced⟩ := hplace t (List.mem_of_getElem? ht) hp
    rw [ht, Option.bind_some, hplaced]
    exact Finset.mem_image_of_mem _ hk
  · obtain ⟨k, hk, rfl⟩ := Finset.mem_image.mp ho
    refine Nat.le_trans (Nat.le_of_eq ?_) (hn k hk)
    rw [← card_indices]
    congr 1
    ext i
    rw [Finset.mem_filter, mem_indices, mem_indices]
    cases ts[i]? with
    | none => simp
    | some t => simp

end TaskPool
