import Mathlib.Data.List.Basic
import Mathlib.Tactic.Common

/-!
# Tests on the bytes of a text

A program tests a text byte by byte, and means its characters.  The two agree for a
test that only ASCII bytes pass: an ASCII character is one byte, its own code, and
every other character starts with a byte that is not ASCII.

`all_bytes` and `head?_bytes` carry such a test from the bytes of a text to its
characters.
-/

namespace Utf8

/-- The bytes of a text. -/
def bytes (text : String) : List UInt8 := text.toUTF8.data.toList

theorem bytes_eq_flatMap (text : String) :
    bytes text = text.toList.flatMap String.utf8EncodeChar := by
  rw [bytes, String.toUTF8_eq_toByteArray, ← String.utf8Encode_toList]
  simp [List.utf8Encode]

theorem bytes_append (a b : String) : bytes (a ++ b) = bytes a ++ bytes b := by
  rw [bytes_eq_flatMap, String.toList_append, List.flatMap_append, bytes_eq_flatMap,
    bytes_eq_flatMap]

/-- Texts of the same bytes are equal. -/
theorem bytes_inj {a b : String} : bytes a = bytes b ↔ a = b := by
  constructor
  · intro h
    apply String.toByteArray_inj.mp
    exact ByteArray.ext (Array.toList_inj.mp h)
  · intro h
    rw [h]

theorem length_bytes (text : String) : (bytes text).length = text.utf8ByteSize := rfl

/-! ## The bytes of a character -/

/-- An ASCII character is one byte. -/
theorem utf8EncodeChar_of_lt {c : Char} (h : c.toNat < 128) :
    String.utf8EncodeChar c = [UInt8.ofNat c.toNat] := by
  have hle : c.val.toNat ≤ 127 := Nat.le_of_lt_succ h
  simp only [String.utf8EncodeChar, if_pos hle]
  rfl

/-- Any other character starts with a byte that is not ASCII. -/
theorem utf8EncodeChar_of_ge {c : Char} (h : 128 ≤ c.toNat) :
    ∃ b rest, String.utf8EncodeChar c = b :: rest ∧ 128 ≤ b.toNat := by
  have hgt : ¬c.val.toNat ≤ 127 := Nat.not_le.mpr h
  simp only [String.utf8EncodeChar, if_neg hgt]
  split_ifs
  · exact ⟨_, _, rfl, by simp only [UInt8.toNat_ofNat']; omega⟩
  · exact ⟨_, _, rfl, by simp only [UInt8.toNat_ofNat']; omega⟩
  · exact ⟨_, _, rfl, by simp only [UInt8.toNat_ofNat']; omega⟩

section Test

variable (p : UInt8 → Bool)

/-- A test of bytes as a test of characters. -/
def charTest (c : Char) : Bool := decide (c.toNat < 128) && p (UInt8.ofNat c.toNat)

variable {p} (hp : ∀ b, p b = true → b.toNat < 128)
include hp

theorem test_eq_false {b : UInt8} (hb : 128 ≤ b.toNat) : p b = false := by
  rw [Bool.eq_false_iff]
  intro hpb
  exact absurd (hp b hpb) (Nat.not_lt.mpr hb)

theorem any_head?_utf8EncodeChar (c : Char) :
    (String.utf8EncodeChar c).head?.any p = charTest p c := by
  by_cases h : c.toNat < 128
  · simp [utf8EncodeChar_of_lt h, charTest, h]
  · obtain ⟨b, rest, hbytes, hb⟩ := utf8EncodeChar_of_ge (Nat.not_lt.mp h)
    simp [hbytes, charTest, h, test_eq_false hp hb]

theorem all_utf8EncodeChar (c : Char) : (String.utf8EncodeChar c).all p = charTest p c := by
  by_cases h : c.toNat < 128
  · simp [utf8EncodeChar_of_lt h, charTest, h]
  · obtain ⟨b, rest, hbytes, hb⟩ := utf8EncodeChar_of_ge (Nat.not_lt.mp h)
    simp [hbytes, charTest, h, test_eq_false hp hb]

/-- All bytes of a text pass exactly if all its characters do. -/
theorem all_bytes (text : String) : (bytes text).all p = text.toList.all (charTest p) := by
  rw [bytes_eq_flatMap, List.all_flatMap]
  exact congrArg _ (funext (all_utf8EncodeChar hp))

/-- The first byte of a text passes exactly if its first character does. -/
theorem any_head?_bytes (text : String) :
    (bytes text).head?.any p = text.toList.head?.any (charTest p) := by
  rw [bytes_eq_flatMap]
  cases text.toList with
  | nil => rfl
  | cons c rest =>
    rw [List.flatMap_cons, List.head?_append_of_ne_nil _ String.utf8EncodeChar_ne_nil]
    exact any_head?_utf8EncodeChar hp c

end Test

end Utf8
