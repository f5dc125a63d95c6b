import Tinkiva.Api.Value

/-!
# Values that are read and written back

`cellValue` is the reading of a stored value as JSON, and `bindValue` the writing of a
JSON value.  A value that is not a BLOB comes back as it was.  A BLOB is read as an
object, and every object is bound as a TEXT, so it comes back as the JSON text of that
object.

No two values are read alike, which for a BLOB is that base64 can be decoded.
-/

namespace Tinkiva.Api

/-! ## Base64 -/

/-- The six bits of a digit of the standard alphabet. -/
def base64Value (c : Char) : Nat :=
  let n := c.toNat
  if 65 ≤ n ∧ n ≤ 90 then n - 65
  else if 97 ≤ n ∧ n ≤ 122 then n - 97 + 26
  else if 48 ≤ n ∧ n ≤ 57 then n - 48 + 52
  else if n = 43 then 62
  else if n = 47 then 63
  else 0

/-- The bytes of a base64 text with padding. -/
def base64Decode : List Char → List UInt8
  | a :: b :: c :: d :: rest =>
    let n := ((base64Value a * 64 + base64Value b) * 64 + base64Value c) * 64 + base64Value d
    if c = '=' then [.ofNat (n / 65536)]
    else if d = '=' then [.ofNat (n / 65536), .ofNat (n / 256 % 256)]
    else .ofNat (n / 65536) :: .ofNat (n / 256 % 256) :: .ofNat (n % 256) :: base64Decode rest
  | _ => []

theorem base64Digit_spec : ∀ n : Fin 64,
    base64Value (base64Digit n) = n ∧ base64Digit n ≠ '=' := by
  decide

theorem base64Value_digit {n : Nat} (hn : n < 64) : base64Value (base64Digit n) = n :=
  (base64Digit_spec ⟨n, hn⟩).1

theorem base64Digit_ne_pad {n : Nat} (hn : n < 64) : base64Digit n ≠ '=' :=
  (base64Digit_spec ⟨n, hn⟩).2

theorem base64Value_pad : base64Value '=' = 0 := rfl

theorem ofNat_eq {n : Nat} {a : UInt8} (h : n = a.toNat) : UInt8.ofNat n = a :=
  h ▸ UInt8.ofNat_toNat

/-- Two digits are one byte, and four bits that are dropped. -/
theorem base64Decode_two {i j : Nat} (hi : i < 64) (hj : j < 64) :
    base64Decode [base64Digit i, base64Digit j, '=', '='] = [.ofNat ((i * 64 + j) / 16)] := by
  have hn : ((i * 64 + j) * 64 * 64) / 65536 = (i * 64 + j) / 16 := by omega
  simp [base64Decode, base64Value_digit hi, base64Value_digit hj, base64Value_pad, hn]

/-- Three digits are two bytes, and two bits that are dropped. -/
theorem base64Decode_three {i j k : Nat} (hi : i < 64) (hj : j < 64) (hk : k < 64) :
    base64Decode [base64Digit i, base64Digit j, base64Digit k, '='] =
      [.ofNat (((i * 64 + j) * 64 + k) / 1024), .ofNat (((i * 64 + j) * 64 + k) / 4 % 256)] := by
  have hfirst : ((i * 64 + j) * 64 + k) * 64 / 65536 = ((i * 64 + j) * 64 + k) / 1024 := by omega
  have hsecond : ((i * 64 + j) * 64 + k) * 64 / 256 = ((i * 64 + j) * 64 + k) / 4 := by omega
  simp [base64Decode, base64Value_digit hi, base64Value_digit hj, base64Value_digit hk,
    base64Value_pad, base64Digit_ne_pad hk, hfirst, hsecond]

/-- Four digits are three bytes. -/
theorem base64Decode_four {i j k l : Nat} (hi : i < 64) (hj : j < 64) (hk : k < 64) (hl : l < 64)
    (rest : List Char) :
    base64Decode (base64Digit i :: base64Digit j :: base64Digit k :: base64Digit l :: rest) =
      .ofNat ((((i * 64 + j) * 64 + k) * 64 + l) / 65536) ::
        .ofNat ((((i * 64 + j) * 64 + k) * 64 + l) / 256 % 256) ::
          .ofNat ((((i * 64 + j) * 64 + k) * 64 + l) % 256) :: base64Decode rest := by
  simp [base64Decode, base64Value_digit hi, base64Value_digit hj, base64Value_digit hk,
    base64Value_digit hl, base64Digit_ne_pad hk, base64Digit_ne_pad hl]

/-- What has been encoded can be decoded. -/
theorem base64Decode_encode (bytes : List UInt8) : base64Decode (base64Encode bytes) = bytes := by
  induction bytes using base64Encode.induct with
  | case1 => rfl
  | case2 a =>
    have ha := a.toNat_lt
    rw [base64Encode, base64Decode_two (by omega) (by omega), ofNat_eq (a := a) (by omega)]
  | case3 a b =>
    have ha := a.toNat_lt
    have hb := b.toNat_lt
    rw [base64Encode, base64Decode_three (by omega) (by omega) (by omega),
      ofNat_eq (a := a) (by omega), ofNat_eq (a := b) (by omega)]
  | case4 a b c rest ih =>
    have ha := a.toNat_lt
    have hb := b.toNat_lt
    have hc := c.toNat_lt
    rw [base64Encode, base64Decode_four (by omega) (by omega) (by omega) (by omega), ih,
      ofNat_eq (a := a) (by omega), ofNat_eq (a := b) (by omega), ofNat_eq (a := c) (by omega)]

/-! ## Reading and writing back -/

/-- A value that SQLite gives back as it is and JSON can carry: a REAL is finite, a TEXT is
UTF-8. -/
def SqliteValue.Storable : SqliteValue → Prop
  | .real bits => bits.isFinite = true
  | .text bytes => ∃ value : String, bytes = value.toUTF8.data.toList
  | .null | .integer _ | .blob _ => True

/-- The object that stands for a BLOB. -/
def blobObject (bytes : List UInt8) : Value :=
  .object [("$blob", .string (String.ofList (base64Encode bytes)))]

/-- What a value comes back as: a BLOB as a TEXT, every other value as itself. -/
def SqliteValue.rebound (toString : Value → String) : SqliteValue → SqliteValue
  | .blob bytes => .ofString (toString (blobObject bytes))
  | value => value

theorem fromUTF8?_toUTF8 (value : String) :
    String.fromUTF8? ⟨value.toUTF8.data.toList.toArray⟩ = some value := by
  rw [Array.toArray_toList]
  exact dif_pos value.isValidUTF8

theorem cellValue_ofString (value : String) :
    cellValue (.ofString value) = .ok (.string value) := by
  simp only [SqliteValue.ofString, cellValue, fromUTF8?_toUTF8]

/-- A number of 64 bits that is not negative is an `i64` of the same bits. -/
theorem bind_ofI64 (toString : Value → String) (value : Int64) :
    bindValue toString (.number (.ofI64 value)) = .ok (.integer value) := by
  unfold Number.ofI64
  split
  · rfl
  · rename_i hnonneg
    have hi64 : (Number.posInt value.toUInt64).isI64 = true := by
      have hlt : value.toUInt64.toNat < 2 ^ 63 := by
        rw [Int64.toNat_toUInt64_of_le (Int64.not_lt.mp hnonneg)]
        exact value.toNatClampNeg_lt
      exact decide_eq_true (Nat.le_sub_one_of_lt hlt)
    simp only [bindValue, hi64, if_true, Int64.toInt64_toUInt64]

/-- A storable value is read without an error, and what is read can be bound. -/
theorem cellValue_bind (toString : Value → String) {v : SqliteValue} (hv : v.Storable) :
    ∃ json, cellValue v = .ok json ∧ bindValue toString json = .ok (v.rebound toString) := by
  cases v with
  | null => exact ⟨_, rfl, rfl⟩
  | integer value => exact ⟨_, rfl, bind_ofI64 toString value⟩
  | real bits =>
    have hreal : Value.ofF64 bits = .number (.float bits) := if_pos hv
    exact ⟨_, congrArg _ hreal, rfl⟩
  | text bytes =>
    obtain ⟨value, rfl⟩ := hv
    exact ⟨_, cellValue_ofString value, rfl⟩
  | blob bytes => exact ⟨_, rfl, rfl⟩

/-- The stored value behind a JSON value that has been read: the one that it is bound to,
or the BLOB that its object stands for. -/
def unread : Value → SqliteValue
  | .object ((_, .string text) :: _) => .blob (base64Decode text.toList)
  | json =>
    match bindValue (fun _ => "") json with
    | .ok value => value
    | .error _ => .null

theorem unread_blobObject (bytes : List UInt8) : unread (blobObject bytes) = .blob bytes := by
  simp only [blobObject, unread, String.toList_ofList, base64Decode_encode]

/-- Behind what a storable value is read as there is that value. -/
theorem unread_cellValue {v : SqliteValue} (hv : v.Storable) {json : Value}
    (hread : cellValue v = .ok json) : unread json = v := by
  cases v with
  | null =>
    obtain rfl := Except.ok.inj hread
    rfl
  | integer value =>
    obtain rfl := Except.ok.inj hread
    simp only [unread, bind_ofI64]
  | real bits =>
    have hreal : Value.ofF64 bits = .number (.float bits) := if_pos hv
    obtain rfl : .number (.float bits) = json := hreal.symm.trans (Except.ok.inj hread)
    rfl
  | text bytes =>
    obtain ⟨value, rfl⟩ := hv
    obtain rfl := Except.ok.inj ((cellValue_ofString value).symm.trans hread)
    rfl
  | blob bytes =>
    obtain rfl : blobObject bytes = json := Except.ok.inj hread
    exact unread_blobObject bytes

/-! ## Rows -/

/-- The values that are stored in a row. -/
def SqliteRow.values (row : SqliteRow) : List SqliteValue := row.cells.map Prod.snd

/-- What is read of a row, bound as parameters. -/
theorem rowValues_bind (toString : Value → String) {row : SqliteRow}
    (hrow : ∀ v ∈ row.values, v.Storable) :
    ∃ json, rowValues row = .ok json ∧
      bindQuery toString json = .ok (row.values.map (SqliteValue.rebound toString)) := by
  obtain ⟨cells⟩ := row
  induction cells with
  | nil => exact ⟨[], rfl, rfl⟩
  | cons cell cells ih =>
    obtain ⟨hcell, hcells⟩ := List.forall_mem_cons.mp hrow
    obtain ⟨first, hread, hbind⟩ := cellValue_bind toString hcell
    obtain ⟨rest, hreads, hbinds⟩ := ih hcells
    refine ⟨first :: rest, ?_, ?_⟩
    · exact mapM_eq_ok.mpr (.cons hread (mapM_eq_ok.mp hreads))
    · exact mapM_eq_ok.mpr (.cons hbind (mapM_eq_ok.mp hbinds))

/-- What a row is read as tells the values of the row. -/
theorem unread_rowValues {row : SqliteRow} (hrow : ∀ v ∈ row.values, v.Storable)
    {json : List Value} (hread : rowValues row = .ok json) : json.map unread = row.values := by
  obtain ⟨cells⟩ := row
  induction cells generalizing json with
  | nil =>
    obtain rfl := Except.ok.inj hread
    rfl
  | cons cell cells ih =>
    obtain ⟨hcell, hcells⟩ := List.forall_mem_cons.mp hrow
    obtain ⟨first, rest, hfirst, hrest, rfl⟩ :=
      List.forall₂_cons_left_iff.mp (mapM_eq_ok.mp hread)
    exact congrArg₂ List.cons (unread_cellValue hcell hfirst) (ih hcells (mapM_eq_ok.mpr hrest))

/-- No two rows are read alike, but for the names of their columns. -/
theorem rowValues_injective {row row' : SqliteRow} (hrow : ∀ v ∈ row.values, v.Storable)
    (hrow' : ∀ v ∈ row'.values, v.Storable) (h : rowValues row = rowValues row') :
    row.values = row'.values := by
  obtain ⟨json, hread, _⟩ := rowValues_bind (fun _ => "") hrow
  rw [← unread_rowValues hrow hread, unread_rowValues hrow' (h.symm.trans hread)]

/-- A row of storable values is read without an error, and what is read is bound without
an error: a BLOB as the JSON text of its object, every other value as itself.  No two rows
are read alike, and what a row is read as tells its values. -/
theorem values_round_trip (toString : Value → String) :
    (∀ v : SqliteValue, v.Storable → (∀ bytes, v ≠ .blob bytes) →
      ∃ json, cellValue v = .ok json ∧ bindValue toString json = .ok v) ∧
    (∀ bytes, ∃ json, cellValue (.blob bytes) = .ok json ∧
      bindValue toString json = .ok (.ofString (toString json))) ∧
    (∀ row : SqliteRow, (∀ v ∈ row.values, v.Storable) →
      ∃ json, rowValues row = .ok json ∧
        bindQuery toString json = .ok (row.values.map (SqliteValue.rebound toString))) ∧
    ∀ row row' : SqliteRow, (∀ v ∈ row.values, v.Storable) → (∀ v ∈ row'.values, v.Storable) →
      rowValues row = rowValues row' → row.values = row'.values := by
  refine ⟨fun v hv hblob => ?_, fun bytes => ⟨_, rfl, rfl⟩, fun row hrow => ?_, ?_⟩
  · obtain ⟨json, hread, hbind⟩ := cellValue_bind toString hv
    refine ⟨json, hread, hbind.trans ?_⟩
    cases v with
    | blob bytes => exact absurd rfl (hblob bytes)
    | _ => rfl
  · exact rowValues_bind toString hrow
  · exact fun row row' hrow hrow' h => rowValues_injective hrow hrow' h

/-- `Value::to_string` of a BLOB object. -/
def blobToString : Value → String
  | .object [("$blob", .string text)] => "\x7b\"$blob\":\"" ++ text ++ "\"\x7d"
  | _ => ""

/-- A row with a value of each kind. -/
def someRow : SqliteRow :=
  ⟨[("n", .null), ("i", .integer (-7)), ("r", .real 0x4009000000000000), ("t", .ofString "é"),
    ("b", .blob [1])]⟩

theorem values_round_trip_row :
    ∃ json, rowValues someRow = .ok json ∧
      bindQuery blobToString json = .ok [.null, .integer (-7), .real 0x4009000000000000,
        .ofString "é", .ofString "\x7b\"$blob\":\"AQ==\"\x7d"] := by
  apply (values_round_trip blobToString).2.2.1 someRow
  simp only [someRow, SqliteRow.values, List.map_cons, List.map_nil, List.forall_mem_cons]
  exact ⟨trivial, trivial, rfl, ⟨"é", rfl⟩, trivial, fun v hv => absurd hv List.not_mem_nil⟩

/-- A BLOB of one byte is bound as a TEXT. -/
theorem values_round_trip_blob :
    ∃ json, cellValue (.blob [1]) = .ok json ∧
      bindValue blobToString json = .ok (.ofString "\x7b\"$blob\":\"AQ==\"\x7d") ∧
      bindValue blobToString json ≠ .ok (.blob [1]) := by
  refine ⟨_, rfl, by rfl, fun h => ?_⟩
  exact SqliteValue.noConfusion (Except.ok.inj h)

end Tinkiva.Api
