import Mathlib.Algebra.Order.Field.Rat
import Mathlib.Tactic.NormNum
import Mathlib.Tactic.Positivity

/-!
# Decimals and their texts

A `Decimal` is a whole number behind a power of ten.  `text` writes it without an exponent,
and `read` is a reader of such texts: digits, and more digits behind a point if there is one.

`read_text` is the round trip.
-/

/-- The decimal `significand * 10 ^ exponent`. -/
structure Decimal where
  significand : ℕ
  exponent : ℤ
  deriving DecidableEq, Repr

namespace Decimal

def value (d : Decimal) : ℚ := d.significand * 10 ^ d.exponent

/-! ## Writing -/

/-- The last digits of a number, as many as there are places. -/
def lastDigits : ℕ → ℕ → List Char
  | 0, _ => []
  | places + 1, n => lastDigits places (n / 10) ++ [Nat.digitChar (n % 10)]

/-- The decimal without an exponent.  Where it has places behind the point, it is written
with all of them. -/
def text (d : Decimal) : String :=
  if 0 ≤ d.exponent then (d.significand * 10 ^ d.exponent.toNat).repr
  else
    let places := (-d.exponent).toNat
    (d.significand / 10 ^ places).repr ++ "." ++ String.ofList (lastDigits places d.significand)

/-! ## Reading -/

/-- The number that digits stand for. -/
def readDigits (digits : List Char) : Option ℕ :=
  if digits ≠ [] ∧ digits.all Char.isDigit then some (Nat.ofDigitChars 10 digits 0) else none

/-- The number that a text stands for. -/
def read (text : String) : Option ℚ :=
  match text.toList.splitOn '.' with
  | [whole] => (readDigits whole).map fun n : ℕ => (n : ℚ)
  | [whole, fraction] =>
    (readDigits whole).bind fun n : ℕ =>
      (readDigits fraction).map fun m : ℕ => (n + m / 10 ^ fraction.length : ℚ)
  | _ => none

/-! ## The round trip -/

theorem length_lastDigits (places n : ℕ) : (lastDigits places n).length = places := by
  induction places generalizing n with
  | zero => rfl
  | succ places ih => rw [lastDigits, List.length_append, ih, List.length_singleton]

theorem isDigit_lastDigits {places n : ℕ} : ∀ c ∈ lastDigits places n, c.isDigit = true := by
  induction places generalizing n with
  | zero => exact fun c hc => absurd hc List.not_mem_nil
  | succ places ih =>
    intro c hc
    rcases List.mem_append.mp hc with hc | hc
    · exact ih c hc
    · rw [List.mem_singleton.mp hc, Nat.isDigit_digitChar]
      exact decide_eq_true (Nat.mod_lt n (by decide))

theorem isDigit_repr (n : ℕ) : ∀ c ∈ n.repr.toList, c.isDigit = true := by
  intro c hc
  rw [Nat.toList_repr] at hc
  exact Nat.isDigit_of_mem_toDigits (by decide) (by decide) hc

theorem ofDigitChars_lastDigits (places n : ℕ) :
    Nat.ofDigitChars 10 (lastDigits places n) 0 = n % 10 ^ places := by
  induction places generalizing n with
  | zero => simp [lastDigits, Nat.mod_one]
  | succ places ih =>
    rw [lastDigits, Nat.ofDigitChars_append, ih,
      Nat.ofDigitChars_cons_digitChar_of_lt_ten (Nat.mod_lt n (by decide)), Nat.ofDigitChars_nil,
      Nat.pow_succ', Nat.mod_mul]
    omega

theorem readDigits_repr (n : ℕ) : readDigits n.repr.toList = some n := by
  have hne : n.repr.toList ≠ [] := by
    rw [Nat.toList_repr]
    exact Nat.toDigits_ne_nil
  rw [readDigits, if_pos ⟨hne, List.all_eq_true.mpr (isDigit_repr n)⟩, Nat.toList_repr,
    Nat.ofDigitChars_ten_toDigits]

theorem readDigits_lastDigits {places : ℕ} (hplaces : 0 < places) (n : ℕ) :
    readDigits (lastDigits places n) = some (n % 10 ^ places) := by
  have hne : lastDigits places n ≠ [] := by
    rw [← List.length_pos_iff, length_lastDigits]
    exact hplaces
  rw [readDigits, if_pos ⟨hne, List.all_eq_true.mpr isDigit_lastDigits⟩, ofDigitChars_lastDigits]

theorem point_notMem {digits : List Char} (h : ∀ c ∈ digits, c.isDigit = true) : '.' ∉ digits :=
  fun hmem => absurd (h '.' hmem) (by decide)

theorem toList_text_nonneg (n k : ℕ) : (text ⟨n, k⟩).toList = (n * 10 ^ k).repr.toList := rfl

theorem toList_text_neg (n : ℕ) {k : ℕ} (hk : 0 < k) :
    (text ⟨n, -k⟩).toList = (n / 10 ^ k).repr.toList ++ '.' :: lastDigits k n := by
  have hneg : ¬(0 : ℤ) ≤ -k := by omega
  rw [text, if_neg hneg]
  simp

/-- A decimal is read back from its text. -/
theorem read_text (d : Decimal) : read d.text = some d.value := by
  obtain ⟨n, e⟩ := d
  rcases le_or_gt 0 e with he | he
  · obtain ⟨k, rfl⟩ := Int.eq_ofNat_of_zero_le he
    rw [read, toList_text_nonneg, List.splitOn_eq_singleton (point_notMem (isDigit_repr _))]
    dsimp only
    rw [readDigits_repr, Option.map_some, value, zpow_natCast, Nat.cast_mul, Nat.cast_pow,
      Nat.cast_ofNat]
  · obtain ⟨k, rfl⟩ : ∃ k : ℕ, e = -(k : ℤ) := ⟨(-e).toNat, by omega⟩
    have hk : 0 < k := by omega
    have hpow : (10 : ℚ) ^ k ≠ 0 := by positivity
    have hdiv : ((n / 10 ^ k : ℕ) : ℚ) * 10 ^ k + ((n % 10 ^ k : ℕ) : ℚ) = n := by
      exact_mod_cast Nat.div_add_mod' n (10 ^ k)
    rw [read, toList_text_neg n hk, List.splitOn_append_cons_self,
      List.splitOn_eq_singleton (point_notMem (isDigit_repr _)),
      List.splitOn_eq_singleton (point_notMem isDigit_lastDigits), List.singleton_append]
    dsimp only
    rw [readDigits_repr, readDigits_lastDigits hk, Option.bind_some, Option.map_some,
      length_lastDigits, value, zpow_neg, zpow_natCast, ← hdiv, add_mul,
      mul_inv_cancel_right₀ hpow, div_eq_mul_inv]

/-- There is nothing in the text but digits and a point. -/
theorem isDigit_text {d : Decimal} : ∀ c ∈ d.text.toList, c.isDigit = true ∨ c = '.' := by
  obtain ⟨n, e⟩ := d
  intro c hc
  rcases le_or_gt 0 e with he | he
  · obtain ⟨k, rfl⟩ := Int.eq_ofNat_of_zero_le he
    exact Or.inl (isDigit_repr _ c hc)
  · obtain ⟨k, rfl⟩ : ∃ k : ℕ, e = -(k : ℤ) := ⟨(-e).toNat, by omega⟩
    rw [toList_text_neg n (by omega)] at hc
    rcases List.mem_append.mp hc with hc | hc
    · exact Or.inl (isDigit_repr _ c hc)
    · rcases List.mem_cons.mp hc with rfl | hc
      · exact Or.inr rfl
      · exact Or.inl (isDigit_lastDigits c hc)

end Decimal
