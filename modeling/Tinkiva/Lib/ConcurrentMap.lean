import Mathlib.Data.Finset.Dedup
import Mathlib.Data.Finset.SDiff
import Mathlib.Data.Finset.Card
import Mathlib.Data.List.AList

/-!
# A concurrent map and its weakly consistent iterator

The content of a concurrent map is a Mathlib `AList`: one value per key.  The
single-key operations are `AList.lookup`, `AList.insert` and `AList.erase`.
This file adds the three things a sharded map offers beyond them.

* `eraseIf` removes a binding only when it still holds a given value.
* `size` is the number of bindings, with its behaviour under each operation.
* `Scan` is an iterator that runs while other tasks change the map.  It yields
  each key at most once, a yielded binding is in the map at that moment, and
  it ends only when every binding that was there at its start and is still
  there has been yielded.  Which of the other bindings it sees is left open.
-/

namespace ConcurrentMap

variable {κ ν : Type}

/-- A map with values of one type. -/
abbrev Map (κ ν : Type) := AList (fun _ : κ => ν)

/-- The number of bindings. -/
def size (m : Map κ ν) : Nat := m.entries.length

variable [DecidableEq κ]

/-- Removes the binding of `k` if its value is `v`. -/
def eraseIf [DecidableEq ν] (m : Map κ ν) (k : κ) (v : ν) : Map κ ν :=
  if m.lookup k = some v then m.erase k else m

/-! ## Lookups after an operation -/

theorem lookup_insert_of (m : Map κ ν) (k j : κ) (v : ν) :
    (m.insert k v).lookup j = if j = k then some v else m.lookup j := by
  split
  · rename_i h
    subst h
    exact AList.lookup_insert m
  · rename_i h
    exact AList.lookup_insert_ne h

theorem lookup_erase_of (m : Map κ ν) (k j : κ) :
    (m.erase k).lookup j = if j = k then none else m.lookup j := by
  split
  · rename_i h
    subst h
    exact AList.lookup_erase j m
  · rename_i h
    exact AList.lookup_erase_ne h

/-- An erased map binds nothing that the map did not bind. -/
theorem lookup_of_lookup_erase {m : Map κ ν} {k j : κ} {v : ν}
    (h : (m.erase k).lookup j = some v) : j ≠ k ∧ m.lookup j = some v := by
  rw [lookup_erase_of] at h
  split at h
  · exact absurd h (by simp)
  · rename_i hne
    exact ⟨hne, h⟩

theorem lookup_eraseIf_of [DecidableEq ν] (m : Map κ ν) (k j : κ) (v : ν) :
    (eraseIf m k v).lookup j =
      if j = k ∧ m.lookup k = some v then none else m.lookup j := by
  unfold eraseIf
  split
  · rename_i h
    simp [lookup_erase_of, h]
  · rename_i h
    simp [h]

/-- The only binding that `eraseIf` can take out is the one it names. -/
theorem lookup_of_lookup_eraseIf [DecidableEq ν] {m : Map κ ν} {k j : κ} {v u : ν}
    (h : (eraseIf m k v).lookup j = some u) :
    m.lookup j = some u ∧ ¬ (j = k ∧ u = v) := by
  rw [lookup_eraseIf_of] at h
  split at h
  · exact absurd h (by simp)
  · rename_i hne
    refine ⟨h, fun ⟨hj, hu⟩ => hne ⟨hj, ?_⟩⟩
    rw [← hj, h, hu]

/-! ## Sizes -/

theorem size_insert {m : Map κ ν} {k : κ} {v : ν} (h : m.lookup k = none) :
    size (m.insert k v) = size m + 1 := by
  rw [size, AList.entries_insert_of_notMem (AList.lookup_eq_none.mp h)]
  rfl

theorem size_erase_le (m : Map κ ν) (k : κ) : size (m.erase k) ≤ size m :=
  (List.kerase_sublist k m.entries).length_le

/-- Removing a key that is bound takes one binding out. -/
theorem size_erase_of_bound {m : Map κ ν} {k : κ} {v : ν} (h : m.lookup k = some v) :
    size (m.erase k) + 1 = size m := by
  have hkey : k ∈ m.keys := AList.mem_keys.mp (AList.lookup_isSome.mp (by simp [h]))
  have hkeys (m : Map κ ν) : size m = m.keys.length := (List.length_map _).symm
  rw [hkeys, hkeys, AList.keys_erase, List.length_erase_of_mem hkey]
  exact Nat.sub_add_cancel (List.length_pos_of_mem hkey)

/-- Removing a key that is bound makes the map smaller. -/
theorem size_erase_lt {m : Map κ ν} {k : κ} {v : ν} (h : m.lookup k = some v) :
    size (m.erase k) < size m :=
  Nat.lt_of_succ_le (Nat.le_of_eq (size_erase_of_bound h))

/-- Removing a key that is not bound takes nothing out. -/
theorem size_erase_of_unbound {m : Map κ ν} {k : κ} (h : m.lookup k = none) :
    size (m.erase k) = size m :=
  congrArg List.length (List.kerase_of_notMem_keys (AList.lookup_eq_none.mp h))

theorem size_eraseIf_le [DecidableEq ν] (m : Map κ ν) (k : κ) (v : ν) :
    size (eraseIf m k v) ≤ size m := by
  unfold eraseIf
  split
  · exact size_erase_le m k
  · exact Nat.le_refl _

/-! ## The iterator -/

/-- An iterator: the bindings at its start, and the keys it has yielded. -/
structure Scan (κ ν : Type) where
  initial : List (κ × ν)
  seen : List κ
  deriving DecidableEq

/-- The bindings of a map as pairs. -/
def bindings (m : Map κ ν) : List (κ × ν) := m.entries.map fun b => (b.1, b.2)

theorem mem_bindings {m : Map κ ν} {k : κ} {v : ν} :
    (k, v) ∈ bindings m ↔ m.lookup k = some v := by
  rw [bindings, ← Option.mem_def, AList.mem_lookup_iff]
  simp

namespace Scan

/-- An iterator over the map as it is now. -/
def start (m : Map κ ν) : Scan κ ν := ⟨bindings m, []⟩

/-- The iterator yields the binding of `k`, which it has not yielded before. -/
def visit (sc : Scan κ ν) (m : Map κ ν) (k : κ) : Option (ν × Scan κ ν) :=
  if k ∈ sc.seen then none
  else (m.lookup k).map fun v => (v, { sc with seen := k :: sc.seen })

/-- The iterator may end: every binding of its start that is still in the map
has been yielded. -/
def finished [DecidableEq ν] (sc : Scan κ ν) (m : Map κ ν) : Bool :=
  sc.initial.all fun b => decide (m.lookup b.1 = some b.2 → b.1 ∈ sc.seen)

theorem visit_eq_some {sc sc' : Scan κ ν} {m : Map κ ν} {k : κ} {v : ν}
    (h : sc.visit m k = some (v, sc')) :
    m.lookup k = some v ∧ k ∉ sc.seen ∧ sc' = { sc with seen := k :: sc.seen } := by
  unfold visit at h
  split at h
  · exact absurd h (by simp)
  · rename_i hk
    obtain ⟨v', hv, heq⟩ := Option.map_eq_some_iff.mp h
    obtain ⟨rfl, rfl⟩ := Prod.mk.inj heq
    exact ⟨hv, hk, rfl⟩

/-- What was bound at the start and is bound at the end has been yielded. -/
theorem seen_of_finished [DecidableEq ν] {sc : Scan κ ν} {m : Map κ ν} {k : κ} {v : ν}
    (h : sc.finished m = true) (hinit : (k, v) ∈ sc.initial)
    (hnow : m.lookup k = some v) : k ∈ sc.seen := by
  rw [finished, List.all_eq_true] at h
  have := h (k, v) hinit
  simpa [hnow] using this

/-- The number of keys of the map that the iterator can still yield. -/
def unseen (sc : Scan κ ν) (m : Map κ ν) : Nat := (m.keys.toFinset \ sc.seen.toFinset).card

/-- A key that is yielded is not yielded again. -/
theorem unseen_visit {sc sc' : Scan κ ν} {m : Map κ ν} {k : κ} {v : ν}
    (h : sc.visit m k = some (v, sc')) : sc'.unseen m < sc.unseen m := by
  obtain ⟨hl, hseen, rfl⟩ := visit_eq_some h
  have hkey : k ∈ m.keys := AList.mem_keys.mp (AList.lookup_isSome.mp (by simp [hl]))
  apply Finset.card_lt_card
  rw [Finset.ssubset_iff_of_subset]
  · exact ⟨k, by simp [hkey, hseen], by simp⟩
  · exact Finset.sdiff_subset_sdiff (Finset.Subset.refl _) (by simp)

/-- An iterator over a map that loses bindings has no more to yield. -/
theorem unseen_mono {sc : Scan κ ν} {m m' : Map κ ν}
    (h : ∀ k v, m'.lookup k = some v → m.lookup k = some v) : sc.unseen m' ≤ sc.unseen m := by
  apply Finset.card_le_card
  refine Finset.sdiff_subset_sdiff (fun k hk => ?_) (Finset.Subset.refl _)
  rw [List.mem_toFinset, ← AList.mem_keys, ← AList.lookup_isSome] at hk ⊢
  obtain ⟨v, hv⟩ := Option.isSome_iff_exists.mp hk
  simp [h k v hv]

theorem unseen_start (m : Map κ ν) : (start m).unseen m ≤ size m := by
  have hkeys : size m = m.keys.length := (List.length_map _).symm
  rw [hkeys]
  exact Nat.le_trans (Finset.card_le_card Finset.sdiff_subset) (List.toFinset_card_le _)

end Scan

end ConcurrentMap
