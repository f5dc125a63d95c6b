import Mathlib.Data.Finset.Card
import Mathlib.Data.Finset.Union

/-!
# A count that is taken while it changes

A survey counts the items of a set that others change.  Every item has a key, and the survey
visits the keys one after the other, each at most once: it adds the items that have the key
at that moment.  The sum need never have been the number of items.

A `Watch` is what was in the set since the survey has begun: the items that were in it all
the time, and the items that were in it at some time.  `Surveyed.bounds` says that the sum
is between the two, if no key of the former has been left out.
-/

/-- The items that were always in a set, and the items that ever were. -/
structure Watch (α : Type*) where
  always : Finset α
  ever : Finset α

namespace Watch

variable {α κ : Type*}

/-- A watch that begins. -/
def start (now : Finset α) : Watch α := ⟨now, now⟩

/-- The set as it is now is between the items of the watch. -/
structure Covers (w : Watch α) (now : Finset α) : Prop where
  always : w.always ⊆ now
  ever : now ⊆ w.ever

/-- A number between the sizes. -/
structure Bounds (w : Watch α) (n : Nat) : Prop where
  lower : w.always.card ≤ n
  upper : n ≤ w.ever.card

variable {w : Watch α} {now : Finset α} {n : Nat}

theorem Covers.start (now : Finset α) : (start now).Covers now := ⟨subset_rfl, subset_rfl⟩

theorem Covers.bounds (h : w.Covers now) : w.Bounds now.card :=
  ⟨Finset.card_le_card h.always, Finset.card_le_card h.ever⟩

section

variable [DecidableEq κ]

/-- The survey has visited the keys `seen` and has the sum `total`. -/
structure Surveyed (w : Watch α) (key : α → κ) (seen : List κ) (total : Nat) : Prop where
  lower : (w.always.filter fun x => key x ∈ seen).card ≤ total
  upper : total ≤ (w.ever.filter fun x => key x ∈ seen).card

variable {key : α → κ} {seen : List κ} {total : Nat}

theorem Surveyed.start (w : Watch α) (key : α → κ) : w.Surveyed key [] 0 :=
  ⟨by simp, Nat.zero_le _⟩

/-- The survey ends. -/
theorem Surveyed.bounds (h : w.Surveyed key seen total)
    (hseen : ∀ x ∈ w.always, key x ∈ seen) : w.Bounds total := by
  constructor
  · rw [← Finset.filter_true_of_mem hseen]
    exact h.lower
  · exact h.upper.trans (Finset.card_le_card (Finset.filter_subset _ _))

end

variable [DecidableEq α] [DecidableEq κ] {key : α → κ} {seen : List κ} {total : Nat}

/-- A watch that goes on. -/
def note (w : Watch α) (now : Finset α) : Watch α := ⟨w.always ∩ now, w.ever ∪ now⟩

theorem Covers.note (w : Watch α) (now : Finset α) : (w.note now).Covers now :=
  ⟨Finset.inter_subset_right, Finset.subset_union_right⟩

theorem Bounds.note (h : w.Bounds n) (now : Finset α) : (w.note now).Bounds n :=
  ⟨(Finset.card_le_card Finset.inter_subset_left).trans h.lower,
    h.upper.trans (Finset.card_le_card Finset.subset_union_left)⟩

/-- The set changes. -/
theorem Surveyed.note (h : w.Surveyed key seen total) (now : Finset α) :
    (w.note now).Surveyed key seen total := by
  constructor
  · exact (Finset.card_le_card (Finset.filter_subset_filter _ Finset.inter_subset_left)).trans
      h.lower
  · exact h.upper.trans
      (Finset.card_le_card (Finset.filter_subset_filter _ Finset.subset_union_left))

/-- The items of one key more. -/
theorem card_filter_cons (s : Finset α) {k : κ} (hk : k ∉ seen) :
    (s.filter fun x => key x ∈ k :: seen).card =
      (s.filter fun x => key x = k).card + (s.filter fun x => key x ∈ seen).card := by
  rw [← Finset.card_union_of_disjoint, ← Finset.filter_or]
  · simp only [List.mem_cons]
  · rw [Finset.disjoint_filter]
    rintro x _ rfl hx
    exact hk hx

/-- The survey visits a key. -/
theorem Surveyed.visit (h : w.Surveyed key seen total) (hcovers : w.Covers now) {k : κ}
    (hk : k ∉ seen) (hn : (now.filter fun x => key x = k).card = n) :
    w.Surveyed key (k :: seen) (total + n) := by
  constructor
  · have halways : (w.always.filter fun x => key x = k).card ≤ n := by
      rw [← hn]
      exact Finset.card_le_card (Finset.filter_subset_filter _ hcovers.always)
    rw [card_filter_cons _ hk]
    exact (Nat.add_le_add halways h.lower).trans (Nat.le_of_eq (Nat.add_comm _ _))
  · have hever : n ≤ (w.ever.filter fun x => key x = k).card := by
      rw [← hn]
      exact Finset.card_le_card (Finset.filter_subset_filter _ hcovers.ever)
    rw [card_filter_cons _ hk, Nat.add_comm total]
    exact Nat.add_le_add hever h.upper

end Watch
