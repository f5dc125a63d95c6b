import Mathlib.Tactic.Common

/-!
# A reference count that shares its word with a sentinel

One machine word holds a reference count, and its greatest value `top` is
reserved: it marks an object that is closed for good.  A holder is counted by
adding one to the word, dropped by a wrapping subtraction of one, and the
object is closed by exchanging `0` for `top`.

The word alone cannot tell a forged sentinel from a real one.  A decrement of
`0` wraps to `top`, and an increment of `top - 1` reaches it.  `Counts top w n`
says that the word `w` is an honest account of `n` holders: either the sentinel
with no holder, or the number `n` itself below the sentinel.  The lemmas say
which operations keep the account honest and when.
-/

namespace SentinelCounter

/-- Wrapping subtraction of one on words `0 .. top`. -/
def fetchSub (top w : Nat) : Nat := (w + top) % (top + 1)

/-- The word `w` is an honest account of `n` holders. -/
inductive Counts (top : Nat) : Nat → Nat → Prop
  | closed : Counts top top 0
  | counting {n : Nat} : n < top → Counts top n n

variable {top w n : Nat}

theorem fetchSub_succ (h : n < top) : fetchSub top (n + 1) = n := by
  rw [fetchSub, show n + 1 + top = n + (top + 1) by omega, Nat.add_mod_right,
    Nat.mod_eq_of_lt (by omega)]

/-- A word that is not the sentinel is the number of holders. -/
theorem Counts.eq_of_ne (h : Counts top w n) (hw : w ≠ top) : w = n := by
  cases h with
  | closed => exact absurd rfl hw
  | counting _ => rfl

/-- A held object is not closed, and its word is its number of holders. -/
theorem Counts.of_pos (h : Counts top w n) (hn : 0 < n) : w = n ∧ w ≠ top := by
  cases h with
  | closed => exact absurd hn (Nat.lt_irrefl 0)
  | counting hlt => exact ⟨rfl, Nat.ne_of_lt hlt⟩

/-- The sentinel leaves no holder. -/
theorem Counts.of_closed (h : Counts top w n) (hw : w = top) : n = 0 := by
  cases h with
  | closed => rfl
  | counting hlt => exact absurd hw (Nat.ne_of_lt hlt)

/-- A word of zero leaves no holder. -/
theorem Counts.of_zero (h : Counts top w n) (hw : w = 0) : n = 0 := by
  cases h with
  | closed => rfl
  | counting _ => exact hw

/-- Taking a reference: the word must not be the sentinel, and the new number
of holders must stay below it. -/
theorem Counts.acquire (h : Counts top w n) (hw : w ≠ top) (hlt : n + 1 < top) :
    Counts top (w + 1) (n + 1) := by
  obtain rfl := h.eq_of_ne hw
  exact .counting hlt

/-- Dropping a reference that is really held neither wraps nor forges the
sentinel. -/
theorem Counts.release (h : Counts top w (n + 1)) : Counts top (fetchSub top w) n := by
  cases h with
  | counting hlt =>
    rw [fetchSub_succ (by omega)]
    exact .counting (by omega)

/-- Closing: exchanging `0` for the sentinel. -/
theorem Counts.close (h : Counts top 0 n) : Counts top top n := by
  obtain rfl := h.of_zero rfl
  exact .closed

theorem Counts.iff : Counts top w n ↔ (w = top ∧ n = 0) ∨ (w = n ∧ n < top) := by
  constructor
  · intro h
    cases h with
    | closed => exact Or.inl ⟨rfl, rfl⟩
    | counting hlt => exact Or.inr ⟨rfl, hlt⟩
  · rintro (⟨rfl, rfl⟩ | ⟨rfl, hlt⟩)
    · exact .closed
    · exact .counting hlt

end SentinelCounter
