import Mathlib.Algebra.Group.Nat.Defs
import Mathlib.Data.List.Forall2
import Tinkiva.Error

/-!
# Values: JSON on one side, SQLite on the other

The JSON values of a request and a response, the values that SQLite stores, and
the two conversions of `src/src/api.rs`: `bind_query` turns the parameters of a
request into arguments of a statement, and `row_values` turns a row into JSON.

An `f64` is its 64 bits.  A TEXT is its bytes, which SQLite does not check; the
conversion to a `String` does.
-/

namespace Tinkiva.Api

/-- The bits of an `f64`. -/
abbrev F64 := UInt64

/-- Neither infinite nor a NaN: the exponent is not all ones. -/
def F64.isFinite (bits : F64) : Bool := bits >>> 52 &&& 0x7ff != 0x7ff

/-- `serde_json::Number`. -/
inductive Number where
  | posInt (value : UInt64)
  | negInt (value : Int64)
  | float (bits : F64)
  deriving DecidableEq, Repr

/-- `i64::MAX`. -/
def i64Max : Nat := 2 ^ 63 - 1

namespace Number

/-- `Number::is_i64`. -/
def isI64 : Number → Bool
  | posInt value => decide (value.toNat ≤ i64Max)
  | negInt _ => true
  | float _ => false

/-- `Number::from` for an `i64`. -/
def ofI64 (value : Int64) : Number :=
  if value < 0 then .negInt value else .posInt value.toUInt64

end Number

/-- `serde_json::Value`. -/
inductive Value where
  | null
  | bool (value : Bool)
  | number (value : Number)
  | string (value : String)
  | array (values : List Value)
  | object (entries : List (String × Value))
  deriving Repr, BEq

/-- `Value::from` for an `f64`: JSON has no number for the others. -/
def Value.ofF64 (bits : F64) : Value :=
  if bits.isFinite then .number (.float bits) else .null

/-- A value as SQLite stores it. -/
inductive SqliteValue where
  | null
  | integer (value : Int64)
  | real (bits : F64)
  | text (bytes : List UInt8)
  | blob (bytes : List UInt8)
  deriving DecidableEq, Repr

/-- `sqlx::sqlite::SqliteRow`: the cells, each with the name of its column. -/
structure SqliteRow where
  cells : List (String × SqliteValue)
  deriving DecidableEq, Repr

/-- `row.columns()`, as names. -/
def SqliteRow.columns (row : SqliteRow) : List String := row.cells.map Prod.fst

/-! ## From JSON to SQLite -/

/-- A character that `str::trim` strips: the property `White_Space`. -/
def isWhiteSpace (c : Char) : Bool :=
  let n := c.toNat
  (9 ≤ n && n ≤ 13) || n == 0x20 || n == 0x85 || n == 0xa0 || n == 0x1680 ||
    (0x2000 ≤ n && n ≤ 0x200a) || n == 0x2028 || n == 0x2029 || n == 0x202f || n == 0x205f ||
    n == 0x3000

/-- `validate_sql`.  A text is empty after `trim` if it is all white space. -/
def validateSql (sql : String) : Except AppError Unit :=
  if sql.toList.all isWhiteSpace then .error (.invalidRequest "sql must not be empty") else .ok ()

/-- A `String` as an argument. -/
def SqliteValue.ofString (value : String) : SqliteValue := .text value.toUTF8.data.toList

/-- The body of the loop of `bind_query`.  An array or an object is bound as the
text that `to_string` makes of it. -/
def bindValue (toString : Value → String) : Value → Except AppError SqliteValue
  | .null => .ok .null
  | .bool value => .ok (.integer (if value then 1 else 0))
  | .number (.float bits) => .ok (.real bits)
  | .number (.negInt value) => .ok (.integer value)
  | .number (.posInt value) =>
    if (Number.posInt value).isI64 then .ok (.integer value.toInt64)
    else .error (.invalidRequest "unsigned parameter is larger than SQLite INTEGER")
  | .string value => .ok (.ofString value)
  | value@(.array _) | value@(.object _) => .ok (.ofString (toString value))

/-- The arguments that `bind_query` binds. -/
def bindQuery (toString : Value → String) (params : List Value) :
    Except AppError (List SqliteValue) :=
  params.mapM (bindValue toString)

/-! ## From SQLite to JSON -/

/-- A digit of the standard base64 alphabet. -/
def base64Digit (n : Nat) : Char :=
  if n < 26 then Char.ofNat (65 + n)
  else if n < 52 then Char.ofNat (97 + (n - 26))
  else if n < 62 then Char.ofNat (48 + (n - 52))
  else if n = 62 then '+' else '/'

/-- `BASE64.encode`: the standard alphabet, with padding. -/
def base64Encode : List UInt8 → List Char
  | [] => []
  | [a] =>
    let n := a.toNat * 16
    [base64Digit (n / 64), base64Digit (n % 64), '=', '=']
  | [a, b] =>
    let n := (a.toNat * 256 + b.toNat) * 4
    [base64Digit (n / 4096), base64Digit (n / 64 % 64), base64Digit (n % 64), '=']
  | a :: b :: c :: rest =>
    let n := (a.toNat * 256 + b.toNat) * 256 + c.toNat
    base64Digit (n / 262144) :: base64Digit (n / 4096 % 64) :: base64Digit (n / 64 % 64) ::
      base64Digit (n % 64) :: base64Encode rest

/-- The error of `try_get::<String>` on bytes that are not UTF-8. -/
def decodeError : SqlxError := ⟨false, "error occurred while decoding: invalid utf-8 sequence"⟩

/-- The body of the loop of `row_values`. -/
def cellValue : SqliteValue → Except SqlxError Value
  | .null => .ok .null
  | .integer value => .ok (.number (.ofI64 value))
  | .real bits => .ok (.ofF64 bits)
  | .blob bytes => .ok (.object [("$blob", .string (String.ofList (base64Encode bytes)))])
  | .text bytes =>
    match String.fromUTF8? ⟨bytes.toArray⟩ with
    | some value => .ok (.string value)
    | none => .error decodeError

/-- `row_values`. -/
def rowValues (row : SqliteRow) : Except SqlxError (List Value) :=
  row.cells.mapM fun cell => cellValue cell.2

/-! ## Element by element -/

/-- A loop that converts a list has converted every element of it. -/
theorem mapM_eq_ok {α β ε : Type} {f : α → Except ε β} {xs : List α} {ys : List β} :
    xs.mapM f = .ok ys ↔ List.Forall₂ (fun x y => f x = .ok y) xs ys := by
  induction xs generalizing ys with
  | nil =>
    rw [List.mapM_nil, List.forall₂_nil_left_iff]
    exact ⟨fun h => (Except.ok.inj h).symm, fun h => congrArg Except.ok h.symm⟩
  | cons x xs ih =>
    rw [List.mapM_cons, List.forall₂_cons_left_iff]
    constructor
    · intro h
      cases hx : f x with
      | error e => simp [hx, bind, Except.bind] at h
      | ok y =>
        cases hxs : xs.mapM f with
        | error e => simp [hx, hxs, bind, Except.bind] at h
        | ok zs =>
          simp only [hx, hxs, bind, Except.bind, pure, Except.pure] at h
          exact ⟨y, zs, rfl, ih.mp hxs, (Except.ok.inj h).symm⟩
    · rintro ⟨y, zs, hx, hxs, rfl⟩
      rw [hx, ih.mpr hxs]
      rfl

end Tinkiva.Api
