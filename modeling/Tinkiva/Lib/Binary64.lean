import Tinkiva.Lib.Decimal
import Mathlib.Data.Int.Log
import Mathlib.Data.Rat.Floor
import Mathlib.Tactic.Linarith
import Mathlib.Tactic.NormNum
import Mathlib.Tactic.Positivity
import Mathlib.Tactic.Ring

/-!
# Binary64 numbers and how they are displayed

`nearest` rounds a number to 53 bits, to nearest and ties to even.  A binary64 operation on
positive numbers is the exact operation, rounded.  The exponent has no bounds here, which
makes no difference between `2 ^ (-1022)` and `2 ^ 1024`.

`display` is the shortest text without an exponent that is read as the number: the decimal
with the fewest digits which `nearest` takes to it, and of two such the nearer one.

* `nearest_eq_of_close` is the interval of a number: what is closer to it than a quarter of
  its last place is rounded to it.
* `shortest_spec` says that seventeen digits are always enough, so the shortest decimal
  exists, and `read_display` that the number is read back from its text.
* `shortest_eq` finds the shortest decimal of a number that was rounded from a short one.
-/

namespace Binary64

/-! ## Rounding -/

/-- The whole number nearest to `q`, and the even one of two. -/
def roundEven (q : ℚ) : ℤ :=
  if q - ⌊q⌋ < 1 / 2 then ⌊q⌋
  else if 1 / 2 < q - ⌊q⌋ then ⌊q⌋ + 1
  else if ⌊q⌋ % 2 = 0 then ⌊q⌋ else ⌊q⌋ + 1

/-- The value of the last of the 53 bits of `q`. -/
def ulp (q : ℚ) : ℚ := 2 ^ (Int.log 2 q - 52)

/-- The binary64 number nearest to `q`. -/
def nearest (q : ℚ) : ℚ := roundEven (q / ulp q) * ulp q

theorem abs_roundEven_sub_le (q : ℚ) : |roundEven q - q| ≤ 1 / 2 := by
  have hlow := Int.floor_le q
  have hhigh := Int.lt_floor_add_one q
  unfold roundEven
  split_ifs <;> push_cast <;> rw [abs_le] <;> constructor <;> linarith

/-- A whole number is the only one near it. -/
theorem roundEven_eq {q : ℚ} {n : ℤ} (h : |q - n| < 1 / 2) : roundEven q = n := by
  have hround := abs_le.mp (abs_roundEven_sub_le q)
  have hnear := abs_lt.mp h
  have hlow : ((roundEven q - n : ℤ) : ℚ) < 1 := by push_cast; linarith
  have hhigh : (-1 : ℚ) < ((roundEven q - n : ℤ) : ℚ) := by push_cast; linarith
  have hlow' : roundEven q - n < 1 := by exact_mod_cast hlow
  have hhigh' : -1 < roundEven q - n := by exact_mod_cast hhigh
  omega

theorem ulp_pos (q : ℚ) : 0 < ulp q := zpow_pos (by norm_num) _

/-- A positive number has 53 bits down to its last place. -/
theorem ulp_bounds {q : ℚ} (hq : 0 < q) : 2 ^ 52 * ulp q ≤ q ∧ q < 2 ^ 53 * ulp q := by
  have hlow := Int.zpow_log_le_self (b := 2) (by norm_num) hq
  have hhigh := Int.lt_zpow_succ_log_self (b := 2) (by norm_num) q
  have hulp : ulp q = 2 ^ Int.log 2 q / 2 ^ 52 := by
    rw [ulp, zpow_sub₀ (by norm_num)]
    norm_num
  rw [zpow_add_one₀ (by norm_num)] at hhigh
  push_cast at hlow hhigh
  constructor
  · calc 2 ^ 52 * ulp q = 2 ^ Int.log 2 q := by rw [hulp]; ring
      _ ≤ q := hlow
  · calc q < 2 ^ Int.log 2 q * 2 := hhigh
      _ = 2 ^ 53 * ulp q := by rw [hulp]; ring

/-- The last place of the numbers of one binade. -/
theorem ulp_eq {q : ℚ} {e : ℤ} (hlow : 2 ^ 52 * 2 ^ e ≤ q) (hhigh : q < 2 ^ 53 * (2 : ℚ) ^ e) :
    ulp q = 2 ^ e := by
  have hpos : (0 : ℚ) < 2 ^ e := zpow_pos (by norm_num) _
  have hq : 0 < q := lt_of_lt_of_le (by positivity) hlow
  have hlog : Int.log 2 q = e + 52 := by
    apply le_antisymm
    · have : Int.log 2 q < e + 53 := by
        rw [← Int.lt_zpow_iff_log_lt (by norm_num) hq, zpow_add₀ (by norm_num)]
        push_cast
        linarith
      omega
    · rw [← Int.zpow_le_iff_le_log (by norm_num) hq, zpow_add₀ (by norm_num)]
      push_cast
      linarith
  rw [ulp, hlog, add_sub_cancel_right]

theorem abs_nearest_sub_le (q : ℚ) : |nearest q - q| ≤ ulp q / 2 := by
  have hulp := ulp_pos q
  have hround := abs_roundEven_sub_le (q / ulp q)
  calc |nearest q - q| = |roundEven (q / ulp q) - q / ulp q| * ulp q := by
        rw [nearest, ← abs_of_pos hulp, ← abs_mul, abs_of_pos hulp, sub_mul,
          div_mul_cancel₀ _ hulp.ne']
    _ ≤ 1 / 2 * ulp q := mul_le_mul_of_nonneg_right hround hulp.le
    _ = ulp q / 2 := by ring

/-- The rounding error of a positive number. -/
theorem abs_nearest_sub_le_mul {q : ℚ} (hq : 0 < q) : |nearest q - q| ≤ q / 2 ^ 53 := by
  have hbits := (ulp_bounds hq).1
  calc |nearest q - q| ≤ ulp q / 2 := abs_nearest_sub_le q
    _ ≤ q / 2 ^ 53 := by linarith

@[simp] theorem nearest_zero : nearest 0 = 0 := by
  rw [nearest, zero_div, roundEven_eq (n := 0) (by norm_num)]
  norm_num

theorem nearest_pos {q : ℚ} (hq : 0 < q) : 0 < nearest q := by
  have herror := abs_le.mp (abs_nearest_sub_le_mul hq)
  linarith

/-- A number that ends at its last place is rounded to itself. -/
theorem nearest_eq_self {q : ℚ} {m : ℤ} (h : q = m * ulp q) : nearest q = q := by
  have hwhole : q / ulp q = m := (div_eq_iff (ulp_pos q).ne').mpr h
  rw [nearest, hwhole, roundEven_eq (n := m) (by norm_num), ← h]

/-- Whole numbers are exact up to `2 ^ 53`. -/
theorem nearest_natCast {n : ℕ} (h : n < 2 ^ 53) : nearest n = n := by
  rcases Nat.eq_zero_or_pos n with rfl | hpos
  · simp
  · have hlog : Nat.log 2 n ≤ 52 := Nat.le_of_lt_succ (Nat.log_lt_of_lt_pow hpos.ne' h)
    obtain ⟨places, hplaces⟩ := Nat.exists_eq_add_of_le hlog
    refine nearest_eq_self (m := n * 2 ^ places) ?_
    have hulp : ulp n = (2 ^ places)⁻¹ := by
      rw [ulp, Int.log_natCast, show ((Nat.log 2 n : ℕ) : ℤ) - 52 = -(places : ℤ) by omega,
        zpow_neg, zpow_natCast]
    have hpow : (2 : ℚ) ^ places ≠ 0 := by positivity
    rw [hulp]
    push_cast
    rw [mul_inv_cancel_right₀ hpow]

/-- A positive number of 53 bits. -/
def IsNormal (x : ℚ) : Prop := ∃ (m : ℕ) (e : ℤ), 2 ^ 52 ≤ m ∧ m < 2 ^ 53 ∧ x = m * 2 ^ e

theorem IsNormal.pos {x : ℚ} (h : IsNormal x) : 0 < x := by
  obtain ⟨m, e, hlow, _, rfl⟩ := h
  have hm : 0 < m := by omega
  have hpow : (0 : ℚ) < 2 ^ e := zpow_pos (by norm_num) _
  positivity

theorem isNormal_nearest {q : ℚ} (hq : 0 < q) : IsNormal (nearest q) := by
  have hulp := ulp_pos q
  obtain ⟨hlow, hhigh⟩ := ulp_bounds hq
  have hround := abs_le.mp (abs_roundEven_sub_le (q / ulp q))
  have hlow' : (2 : ℚ) ^ 52 ≤ q / ulp q := (le_div_iff₀ hulp).mpr hlow
  have hhigh' : q / ulp q < 2 ^ 53 := (div_lt_iff₀ hulp).mpr hhigh
  have hge : (2 ^ 52 : ℤ) ≤ roundEven (q / ulp q) := by
    have : ((2 ^ 52 - 1 : ℤ) : ℚ) < roundEven (q / ulp q) := by push_cast; linarith
    have : (2 ^ 52 - 1 : ℤ) < roundEven (q / ulp q) := by exact_mod_cast this
    omega
  have hle : roundEven (q / ulp q) ≤ 2 ^ 53 := by
    have : (roundEven (q / ulp q) : ℚ) < ((2 ^ 53 + 1 : ℤ) : ℚ) := by push_cast; linarith
    have : roundEven (q / ulp q) < 2 ^ 53 + 1 := by exact_mod_cast this
    omega
  obtain ⟨m, hm⟩ := Int.eq_ofNat_of_zero_le (show 0 ≤ roundEven (q / ulp q) by omega)
  have hvalue : nearest q = m * ulp q := by rw [nearest, hm, Int.cast_natCast]
  rcases Nat.lt_or_ge m (2 ^ 53) with hlt | hcarry
  · exact ⟨m, _, by omega, hlt, hvalue⟩
  · -- The bits have carried into the next binade.
    obtain rfl : m = 2 ^ 53 := by omega
    refine ⟨2 ^ 52, Int.log 2 q - 52 + 1, le_rfl, by norm_num, ?_⟩
    rw [hvalue, ulp, zpow_add_one₀ (by norm_num)]
    push_cast
    ring

/-- The interval of a number: what is as near to it is rounded to it, also where the numbers
below it are nearer to each other than those above. -/
theorem nearest_eq_of_close {x d : ℚ} (hx : IsNormal x) (h : |d - x| < x / 2 ^ 54) :
    nearest d = x := by
  obtain ⟨m, e, hm, hm', rfl⟩ := hx
  have hpow : (0 : ℚ) < 2 ^ e := zpow_pos (by norm_num) _
  have hlow : (2 : ℚ) ^ 52 ≤ m := by exact_mod_cast hm
  have hhigh : (m : ℚ) + 1 ≤ 2 ^ 53 := by exact_mod_cast hm'
  obtain ⟨hbelow, habove⟩ := abs_lt.mp h
  have hhalf : (m : ℚ) * 2 ^ e / 2 ^ 54 < 2 ^ e / 2 := by
    have := mul_lt_mul_of_pos_right (show (m : ℚ) < 2 ^ 53 by linarith) hpow
    linarith
  rcases le_or_gt (2 ^ 52 * (2 : ℚ) ^ e) d with hd | hd
  · -- Both numbers are in one binade.
    have hbits := mul_le_mul_of_nonneg_right hhigh hpow.le
    have hulp : ulp d = 2 ^ e := ulp_eq hd (by linarith)
    have hround : roundEven (d / ulp d) = m := by
      apply roundEven_eq
      rw [hulp, Int.cast_natCast, div_sub' hpow.ne', abs_div, abs_of_pos hpow, div_lt_iff₀ hpow,
        mul_comm (2 ^ e) (m : ℚ)]
      linarith
    rw [nearest, hround, hulp, Int.cast_natCast]
  · -- The number is a power of two, and `d` is in the binade below it.
    have hone : (m : ℚ) < 2 ^ 52 + 1 := by
      by_contra hge
      have := mul_le_mul_of_nonneg_right (not_lt.mp hge) hpow.le
      linarith
    obtain rfl : m = 2 ^ 52 := by
      have : m < 2 ^ 52 + 1 := by exact_mod_cast hone
      omega
    have hhalfpow : (2 : ℚ) ^ (e - 1) = 2 ^ e / 2 := by rw [zpow_sub_one₀ (by norm_num)]; ring
    have hpow' : (0 : ℚ) < 2 ^ (e - 1) := zpow_pos (by norm_num) _
    push_cast at hbelow habove ⊢
    have hulp : ulp d = 2 ^ (e - 1) := by
      apply ulp_eq
      · rw [hhalfpow]
        linarith
      · rw [hhalfpow]
        linarith
    have hround : roundEven (d / ulp d) = 2 ^ 53 := by
      apply roundEven_eq
      rw [hulp, div_sub' hpow'.ne', abs_div, abs_of_pos hpow', div_lt_iff₀ hpow', hhalfpow, abs_lt]
      push_cast
      constructor <;> linarith
    rw [nearest, hround, hulp, hhalfpow]
    push_cast
    ring

/-! ## The shortest decimal -/

/-- A multiple of `10 ^ p` next to `x` that is rounded to `x`.  Of two it is the nearer one,
and the greater one if they are equally near. -/
def decimalAt (x : ℚ) (p : ℤ) : Option Decimal :=
  let low : Decimal := ⟨⌊x / 10 ^ p⌋₊, p⟩
  let high : Decimal := ⟨⌊x / 10 ^ p⌋₊ + 1, p⟩
  if nearest low.value = x then
    if nearest high.value = x ∧ high.value - x ≤ x - low.value then some high else some low
  else if nearest high.value = x then some high else none

/-- The decimal with the fewest digits that is rounded to `x`: the first one on the way from
the power of ten above `x` down to seventeen digits. -/
def shortest (x : ℚ) : Option Decimal :=
  (List.range 18).findSome? fun i => decimalAt x (Int.log 10 x + 1 - i)

/-- How the number is displayed.  `shortest_spec` says that it has a shortest decimal. -/
def display (x : ℚ) : String := (shortest x).elim "" Decimal.text

theorem decimalAt_spec {x : ℚ} {p : ℤ} {d : Decimal} (h : decimalAt x p = some d) :
    d.exponent = p ∧ nearest d.value = x := by
  simp only [decimalAt] at h
  split_ifs at h with hlow hhigh hhigh
  · obtain rfl := Option.some.inj h
    exact ⟨rfl, hhigh.1⟩
  · obtain rfl := Option.some.inj h
    exact ⟨rfl, hlow⟩
  · obtain rfl := Option.some.inj h
    exact ⟨rfl, hhigh⟩

/-- The two multiples next to `x`. -/
theorem floor_bounds {x : ℚ} (hx : 0 ≤ x) (p : ℤ) :
    (⌊x / 10 ^ p⌋₊ : ℚ) * 10 ^ p ≤ x ∧ x < (⌊x / 10 ^ p⌋₊ + 1) * 10 ^ p := by
  have hpow : (0 : ℚ) < 10 ^ p := zpow_pos (by norm_num) _
  exact ⟨(le_div_iff₀ hpow).mp (Nat.floor_le (by positivity)),
    (div_lt_iff₀ hpow).mp (Nat.lt_floor_add_one _)⟩

/-- Where one of the two is rounded to `x`, one is found. -/
theorem exists_decimalAt {x : ℚ} {p : ℤ}
    (h : nearest (⌊x / 10 ^ p⌋₊ * 10 ^ p) = x ∨ nearest ((⌊x / 10 ^ p⌋₊ + 1) * 10 ^ p) = x) :
    ∃ d, decimalAt x p = some d := by
  simp only [decimalAt, Decimal.value, Nat.cast_add, Nat.cast_one]
  split_ifs with hlow hhigh hhigh
  · exact ⟨_, rfl⟩
  · exact ⟨_, rfl⟩
  · exact ⟨_, rfl⟩
  · exact absurd h (not_or.mpr ⟨hlow, hhigh⟩)

/-- The first of some numbers that are tried is not behind one that is found. -/
theorem exists_findSome?_range {α : Type*} {f : ℕ → Option α} {n i : ℕ} {a : α} (hi : i < n)
    (h : f i = some a) : ∃ j b, j ≤ i ∧ f j = some b ∧ (List.range n).findSome? f = some b := by
  obtain ⟨k, rfl⟩ := Nat.exists_eq_add_of_lt hi
  have hprefix : List.range (i + 1) <+: List.range (i + k + 1) :=
    ⟨_, by rw [← List.range_add, Nat.add_right_comm]⟩
  have hsome : ((List.range (i + 1)).findSome? f).isSome := by
    rw [List.findSome?_isSome_iff]
    exact ⟨i, List.mem_range.mpr (Nat.lt_succ_self i), by rw [h]; rfl⟩
  obtain ⟨b, hb⟩ := Option.isSome_iff_exists.mp hsome
  obtain ⟨j, hj, hfound⟩ := List.exists_of_findSome?_eq_some hb
  exact ⟨j, b, Nat.le_of_lt_succ (List.mem_range.mp hj), hfound, hprefix.findSome?_eq_some hb⟩

/-- Where there is a decimal on the way, the search finds one which has no more places. -/
theorem shortest_of_decimalAt {x : ℚ} {p : ℤ} (h : ∃ d, decimalAt x p = some d)
    (hhigh : p ≤ Int.log 10 x + 1) (hlow : Int.log 10 x - 16 ≤ p) :
    ∃ d, shortest x = some d ∧ p ≤ d.exponent ∧ nearest d.value = x := by
  obtain ⟨d, hd⟩ := h
  obtain ⟨i, hi⟩ := Int.eq_ofNat_of_zero_le (show 0 ≤ Int.log 10 x + 1 - p by omega)
  obtain rfl : p = Int.log 10 x + 1 - i := by omega
  obtain ⟨j, d', hj, hd', hshortest⟩ := exists_findSome?_range (n := 18)
    (f := fun i : ℕ => decimalAt x (Int.log 10 x + 1 - i)) (by omega) hd
  obtain ⟨hexponent, hvalue⟩ := decimalAt_spec hd'
  exact ⟨d', hshortest, by omega, hvalue⟩

/-- Seventeen digits are enough. -/
theorem shortest_spec {x : ℚ} (hx : IsNormal x) :
    ∃ d, shortest x = some d ∧ nearest d.value = x := by
  have hpos := hx.pos
  have hlog : (10 : ℚ) ^ Int.log 10 x ≤ x := by
    have := Int.zpow_log_le_self (b := 10) (by norm_num) hpos
    exact_mod_cast this
  have hstep : (10 : ℚ) ^ (Int.log 10 x - 16) = 10 ^ Int.log 10 x / 10 ^ 16 := by
    rw [zpow_sub₀ (by norm_num)]
    norm_num
  obtain ⟨hbelow, habove⟩ := floor_bounds hpos.le (Int.log 10 x - 16)
  -- One of the two multiples is nearer than half a step, and so than a quarter of the last place.
  have hfound : ∃ d, decimalAt x (Int.log 10 x - 16) = some d := by
    apply exists_decimalAt
    rw [add_mul, one_mul] at habove ⊢
    set low := (⌊x / 10 ^ (Int.log 10 x - 16)⌋₊ : ℚ) * 10 ^ (Int.log 10 x - 16)
    rw [hstep] at habove ⊢
    rcases le_total (x - low) (10 ^ Int.log 10 x / 10 ^ 16 / 2) with hnear | hnear
    · exact Or.inl (nearest_eq_of_close hx (abs_lt.mpr ⟨by linarith, by linarith⟩))
    · exact Or.inr (nearest_eq_of_close hx (abs_lt.mpr ⟨by linarith, by linarith⟩))
  obtain ⟨d, hd, _, hvalue⟩ := shortest_of_decimalAt hfound (by omega) le_rfl
  exact ⟨d, hd, hvalue⟩

theorem shortest_zero : shortest 0 = some ⟨0, 1⟩ := by
  decide +kernel

/-- The number is read back from its text. -/
theorem read_display {x : ℚ} (hx : x = 0 ∨ IsNormal x) :
    ∃ d, Decimal.read (display x) = some d ∧ nearest d = x := by
  have hshortest : ∃ d, shortest x = some d ∧ nearest d.value = x := by
    rcases hx with rfl | hx
    · exact ⟨_, shortest_zero, by simp [Decimal.value]⟩
    · exact shortest_spec hx
  obtain ⟨d, hd, hvalue⟩ := hshortest
  exact ⟨d.value, by rw [display, hd, Option.elim_some, Decimal.read_text], hvalue⟩

theorem isDigit_display (x : ℚ) : ∀ c ∈ (display x).toList, c.isDigit = true ∨ c = '.' := by
  intro c hc
  rw [display] at hc
  cases hd : shortest x with
  | none =>
    rw [hd] at hc
    exact absurd hc List.not_mem_nil
  | some d =>
    rw [hd] at hc
    exact Decimal.isDigit_text c hc

/-! ## Short decimals -/

section Short

variable {n : ℕ} {p : ℤ}

/-- The rounding error of a decimal of fifteen digits is small beside its last digit. -/
theorem abs_nearest_short (hn : 0 < n) (hfew : n < 10 ^ 15) :
    |nearest (n * 10 ^ p) - n * 10 ^ p| < 10 ^ p / 9 := by
  have hpow : (0 : ℚ) < 10 ^ p := zpow_pos (by norm_num) _
  have hpos : (0 : ℚ) < n := by exact_mod_cast hn
  have hfew' : (n : ℚ) < 10 ^ 15 := by exact_mod_cast hfew
  have hbound := mul_lt_mul_of_pos_right hfew' hpow
  have herror := abs_nearest_sub_le_mul (mul_pos hpos hpow)
  linarith

/-- It is found on the way. -/
theorem decimalAt_short (hn : 0 < n) (hfew : n < 10 ^ 15) :
    ∃ d, decimalAt (nearest (n * 10 ^ p)) p = some d := by
  have hpow : (0 : ℚ) < 10 ^ p := zpow_pos (by norm_num) _
  have hpos : (0 : ℚ) < n := by exact_mod_cast hn
  have herror := abs_lt.mp (abs_nearest_short (p := p) hn hfew)
  obtain ⟨hbelow, habove⟩ := floor_bounds (nearest_pos (mul_pos hpos hpow)).le p
  apply exists_decimalAt
  set x := nearest (n * 10 ^ p) with hx
  set m := ⌊x / 10 ^ p⌋₊
  have hlow : (m : ℚ) < n + 1 := by
    have : (m : ℚ) * 10 ^ p < (n + 1) * 10 ^ p := by linarith
    exact lt_of_mul_lt_mul_right this hpow.le
  have hhigh : (n : ℚ) < m + 2 := by
    have : (n : ℚ) * 10 ^ p < (m + 2) * 10 ^ p := by linarith
    exact lt_of_mul_lt_mul_right this hpow.le
  have hlow' : m < n + 1 := by exact_mod_cast hlow
  have hhigh' : n < m + 2 := by exact_mod_cast hhigh
  rcases (show n = m ∨ n = m + 1 by omega) with hm | hm
  · left
    rw [← hm]
  · right
    have hcast : (m : ℚ) + 1 = n := by rw [hm]; push_cast; ring
    rw [hcast]

/-- The exponents of the way. -/
theorem log_short (hn : 0 < n) (hfew : n < 10 ^ 15) :
    p ≤ Int.log 10 (nearest (n * 10 ^ p)) + 1 ∧ Int.log 10 (nearest (n * 10 ^ p)) - 16 ≤ p := by
  have hpow : (0 : ℚ) < 10 ^ p := zpow_pos (by norm_num) _
  have hone : (1 : ℚ) ≤ n := by exact_mod_cast hn
  have hfew' : (n : ℚ) < 10 ^ 15 := by exact_mod_cast hfew
  have herror := abs_lt.mp (abs_nearest_short (p := p) hn hfew)
  have hx : 0 < nearest (n * 10 ^ p) := nearest_pos (by positivity)
  have hleast := mul_le_mul_of_nonneg_right hone hpow.le
  have hmost := mul_lt_mul_of_pos_right hfew' hpow
  constructor
  · have : p - 1 ≤ Int.log 10 (nearest (n * 10 ^ p)) := by
      rw [← Int.zpow_le_iff_le_log (by norm_num) hx, zpow_sub₀ (by norm_num)]
      push_cast
      linarith
    omega
  · have : Int.log 10 (nearest (n * 10 ^ p)) < p + 16 := by
      rw [← Int.lt_zpow_iff_log_lt (by norm_num) hx, zpow_add₀ (by norm_num)]
      push_cast
      linarith
    omega

/-- A decimal of fifteen digits at most is the shortest decimal of the number that it is
rounded to. -/
theorem shortest_eq (hn : 0 < n) (hfew : n < 10 ^ 15) :
    ∃ d, shortest (nearest (n * 10 ^ p)) = some d ∧ d.value = n * 10 ^ p := by
  have hpow : (0 : ℚ) < 10 ^ p := zpow_pos (by norm_num) _
  have hpos : (0 : ℚ) < n * 10 ^ p := mul_pos (by exact_mod_cast hn) hpow
  have herror := abs_lt.mp (abs_nearest_short (p := p) hn hfew)
  obtain ⟨hhigh, hlow⟩ := log_short (p := p) hn hfew
  obtain ⟨⟨significand, exponent⟩, hd, hexponent, hvalue⟩ :=
    shortest_of_decimalAt (decimalAt_short hn hfew) hhigh hlow
  refine ⟨_, hd, ?_⟩
  -- The decimal that is found is a multiple of `10 ^ p` too.
  obtain ⟨k, hk⟩ := Int.eq_ofNat_of_zero_le (show 0 ≤ exponent - p from sub_nonneg.mpr hexponent)
  obtain rfl : exponent = k + p := by omega
  have hmultiple : Decimal.value ⟨significand, k + p⟩ =
      ((significand * 10 ^ k : ℕ) : ℚ) * 10 ^ p := by
    rw [Decimal.value, zpow_add₀ (by norm_num), zpow_natCast]
    push_cast
    ring
  rw [hmultiple] at hvalue ⊢
  set m := significand * 10 ^ k
  have hm : (0 : ℚ) < m := by
    rcases Nat.eq_zero_or_pos m with hzero | hm
    · have hx : 0 < nearest (n * 10 ^ p) := nearest_pos hpos
      rw [hzero] at hvalue
      simp only [Nat.cast_zero, zero_mul, nearest_zero] at hvalue
      exact absurd hvalue hx.ne
    · exact_mod_cast hm
  have herror' := abs_le.mp (abs_nearest_sub_le_mul (mul_pos hm hpow))
  rw [hvalue] at herror'
  have hmost : (n : ℚ) * 10 ^ p < 10 ^ 15 * 10 ^ p :=
    mul_lt_mul_of_pos_right (by exact_mod_cast hfew) hpow
  have hless : (m : ℚ) < n + 1 := by
    have : (m : ℚ) * 10 ^ p < (n + 1) * 10 ^ p := by linarith
    exact lt_of_mul_lt_mul_right this hpow.le
  have hmore : (n : ℚ) < m + 1 := by
    have : (n : ℚ) * 10 ^ p < (m + 1) * 10 ^ p := by linarith
    exact lt_of_mul_lt_mul_right this hpow.le
  have hless' : m < n + 1 := by exact_mod_cast hless
  have hmore' : n < m + 1 := by exact_mod_cast hmore
  rw [show m = n by omega]

/-- So its text is read back exactly. -/
theorem read_display_short (hfew : n < 10 ^ 15) :
    Decimal.read (display (nearest (n * 10 ^ p))) = some (n * 10 ^ p : ℚ) := by
  rcases Nat.eq_zero_or_pos n with rfl | hn
  · rw [Nat.cast_zero, zero_mul, nearest_zero, display, shortest_zero, Option.elim_some,
      Decimal.read_text, Decimal.value, Nat.cast_zero, zero_mul]
  · obtain ⟨d, hd, hvalue⟩ := shortest_eq (p := p) hn hfew
    rw [display, hd, Option.elim_some, Decimal.read_text, hvalue]

end Short

end Binary64
