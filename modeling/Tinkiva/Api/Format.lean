import Tinkiva.Api.Batch
import Tinkiva.Api.Service

/-!
# The two row formats

A response holds its rows as positional values.  The arrays form writes them as they
are; the objects form writes each row as a JSON object, with the column names as keys.
A `Value` of this file is what a serializer emits, so an object may have equal keys, and
`Value.field` is a parser that keeps the last of them.

The two forms carry the same data exactly if every row is `Tabular` under the header: as
wide as it, and with equal cells under equal names.  The header is read at the first row
of the whole text, and so neither is promised.
-/

namespace Tinkiva.Api

open Sqlite LazyStream

/-! ## Serialization -/

/-- `RowAsObject`. -/
def rowAsObject (columns : List String) (values : List Value) : Value :=
  .object (columns.zip values)

/-- `RowsAsObjects`. -/
def rowsAsObjects (columns : List String) (rows : List (List Value)) : Value :=
  .array (rows.map (rowAsObject columns))

/-- `QueryResponse::write_rows`. -/
def QueryResponse.writeRows (response : QueryResponse) : List (String × Value) :=
  [("columns", .array (response.columns.map .string)),
    ("rows",
      match response.format with
      | .arrays => .array (response.rows.map .array)
      | .objects => rowsAsObjects response.columns response.rows),
    ("truncated", .bool response.truncated)]

/-- `QueryResponse::serialize`. -/
def QueryResponse.serialize (response : QueryResponse) : Value := .object response.writeRows

/-- `BatchStatementResult::serialize`. -/
def BatchStatementResult.serialize (result : BatchStatementResult) : Value :=
  .object ([("rows_affected", .number (.posInt (.ofNat result.rowsAffected))),
    ("last_insert_rowid", .number (.ofI64 result.lastInsertRowid))] ++ result.rows.writeRows)

/-- The response in a format. -/
def QueryResponse.body (response : QueryResponse) (format : RowFormat) : Value :=
  { response with format := format }.serialize

/-- The result of a statement of a batch, in a format. -/
def BatchStatementResult.body (result : BatchStatementResult) (format : RowFormat) : Value :=
  { result with rows := { result.rows with format := format } }.serialize

/-! ## Reading a body -/

/-- The value under a key.  Of equal keys the last one is kept. -/
def Value.field (key : String) : Value → Option Value
  | .object entries => entries.reverse.lookup key
  | _ => none

/-- The value at an index. -/
def Value.item (index : Nat) : Value → Option Value
  | .array values => values[index]?
  | _ => none

/-- Row `j` of a body, in either form. -/
def bodyRow (body : Value) (j : Nat) : Option Value := (body.field "rows").bind (Value.item j)

/-- The forms of a response carry the same data: every row has as many values as there
are columns, and the value under a column name in an object is the value at its place in
the array. -/
structure SameData (response : QueryResponse) (body : RowFormat → Value) : Prop where
  width : ∀ values ∈ response.rows, values.length = response.columns.length
  cell : ∀ (j i : Nat) (column : String), j < response.rows.length →
    response.columns[i]? = some column → ∃ value,
      (bodyRow (body .arrays) j).bind (Value.item i) = some value ∧
      (bodyRow (body .objects) j).bind (Value.field column) = some value

/-- As many values as columns, and equal values under equal names. -/
structure Aligned (columns : List String) (values : List Value) : Prop where
  width : values.length = columns.length
  repeated : ∀ (i k : Nat) (column : String), columns[i]? = some column →
    columns[k]? = some column → values[i]? = values[k]?

/-- A key of a zip finds a value that stands under it. -/
theorem lookup_zip {columns : List String} {values : List Value} {column : String} {value : Value}
    (h : (columns.zip values).reverse.lookup column = some value) :
    ∃ k : Nat, columns[k]? = some column ∧ values[k]? = some value := by
  obtain ⟨before, after, hsplit, _⟩ := List.lookup_eq_some_iff.mp h
  have hmem : (column, value) ∈ columns.zip values := by
    rw [← List.mem_reverse, hsplit]
    exact List.mem_append_right _ List.mem_cons_self
  obtain ⟨k, hk⟩ := List.mem_iff_getElem?.mp hmem
  exact ⟨k, List.getElem?_zip_eq_some.mp hk⟩

/-- A key of a zip that is not short of values finds one. -/
theorem lookup_zip_isSome {columns : List String} {values : List Value} {i : Nat}
    {column : String} {value : Value} (hcolumn : columns[i]? = some column)
    (hvalue : values[i]? = some value) :
    ∃ found, (columns.zip values).reverse.lookup column = some found := by
  rw [← Option.isSome_iff_exists, List.lookup_isSome_iff]
  have hmem : (column, value) ∈ columns.zip values :=
    List.mem_iff_getElem?.mpr ⟨i, List.getElem?_zip_eq_some.mpr ⟨hcolumn, hvalue⟩⟩
  exact ⟨(column, value), List.mem_reverse.mpr hmem, beq_self_eq_true column⟩

/-- In an object, the value under every column name is the one at its place exactly if
the row is aligned. -/
theorem field_rowAsObject {columns : List String} {values : List Value}
    (hwidth : values.length = columns.length) :
    (∀ (i : Nat) (column : String), columns[i]? = some column →
      ∃ value, values[i]? = some value ∧
        (rowAsObject columns values).field column = some value) ↔ Aligned columns values := by
  have hvalue : ∀ (i : Nat) (column : String), columns[i]? = some column →
      ∃ value, values[i]? = some value := by
    intro i column hcolumn
    have hi : i < values.length := hwidth ▸ (List.getElem?_eq_some_iff.mp hcolumn).1
    exact ⟨values[i], List.getElem?_eq_getElem hi⟩
  constructor
  · intro hfield
    refine ⟨hwidth, fun i k column hi hk => ?_⟩
    obtain ⟨value, hvi, hlookup⟩ := hfield i column hi
    obtain ⟨value', hvk, hlookup'⟩ := hfield k column hk
    rw [hvi, hvk]
    exact hlookup.symm.trans hlookup'
  · intro haligned i column hcolumn
    obtain ⟨value, hi⟩ := hvalue i column hcolumn
    obtain ⟨found, hfound⟩ := lookup_zip_isSome hcolumn hi
    obtain ⟨k, hk, hvk⟩ := lookup_zip hfound
    have hsame : values[i]? = some found := (haligned.repeated i k column hcolumn hk).trans hvk
    exact ⟨found, hsame, hfound⟩

/-- A body whose rows field is one of the two forms carries the same data in both exactly
if every row is aligned. -/
theorem sameData_iff {response : QueryResponse} {body : RowFormat → Value}
    (harrays : (body .arrays).field "rows" = some (.array (response.rows.map .array)))
    (hobjects : (body .objects).field "rows" =
      some (rowsAsObjects response.columns response.rows)) :
    SameData response body ↔ ∀ values ∈ response.rows, Aligned response.columns values := by
  have hrow : ∀ (j : Nat) (values : List Value), response.rows[j]? = some values →
      bodyRow (body .arrays) j = some (.array values) ∧
      bodyRow (body .objects) j = some (rowAsObject response.columns values) := by
    intro j values hj
    rw [bodyRow, bodyRow, harrays, hobjects]
    exact ⟨by simp [Value.item, hj], by simp [rowsAsObjects, Value.item, hj]⟩
  constructor
  · intro hsame values hmem
    obtain ⟨j, hj⟩ := List.mem_iff_getElem?.mp hmem
    obtain ⟨harray, hobject⟩ := hrow j values hj
    rw [← field_rowAsObject (hsame.width values hmem)]
    intro i column hcolumn
    have hlt : j < response.rows.length := (List.getElem?_eq_some_iff.mp hj).1
    have hcell := hsame.cell j i column hlt hcolumn
    rw [harray, hobject] at hcell
    exact hcell
  · intro haligned
    refine ⟨fun values hmem => (haligned values hmem).width, fun j i column hj hcolumn => ?_⟩
    have hget : response.rows[j]? = some response.rows[j] := List.getElem?_eq_getElem hj
    obtain ⟨harray, hobject⟩ := hrow j _ hget
    have hmem := List.getElem_mem hj
    rw [harray, hobject]
    exact (field_rowAsObject (haligned _ hmem).width).mpr (haligned _ hmem) i column hcolumn

/-! ## What the rows must be -/

/-- A row that is as wide as the header, with cells of equal JSON under equal names. -/
structure Tabular (header : List String) (row : SqliteRow) : Prop where
  width : row.cells.length = header.length
  repeated : ∀ (i k : Nat) (column : String) (cell cell' : String × SqliteValue),
    header[i]? = some column → header[k]? = some column →
    row.cells[i]? = some cell → row.cells[k]? = some cell' →
    cellValue cell.2 = cellValue cell'.2

/-- Under a header without repeated names it is only the width that counts. -/
theorem tabular_of_nodup {header : List String} {row : SqliteRow} (hnodup : header.Nodup)
    (hwidth : row.cells.length = header.length) : Tabular header row := by
  refine ⟨hwidth, fun i k column cell cell' hi hk hcelli hcellk => ?_⟩
  have hlt : i < header.length := (List.getElem?_eq_some_iff.mp hi).1
  obtain rfl : i = k := (List.getElem?_inj hlt hnodup).mp (hi.trans hk.symm)
  rw [Option.some.inj (hcelli.symm.trans hcellk)]

/-- The rows of a response that are cells of a `SqliteRow` are aligned as the row is. -/
theorem aligned_iff_tabular {header : List String} {row : SqliteRow} {values : List Value}
    (hdecodes : Decodes row values) : Aligned header values ↔ Tabular header row := by
  obtain ⟨hlength, hcells⟩ := List.forall₂_iff_get.mp (mapM_eq_ok.mp hdecodes)
  have hcell : ∀ (i : Nat) (cell : String × SqliteValue), row.cells[i]? = some cell →
      ∃ value, values[i]? = some value ∧ cellValue cell.2 = .ok value := by
    intro i cell hi
    obtain ⟨hlt, rfl⟩ := List.getElem?_eq_some_iff.mp hi
    have hlt' : i < values.length := hlength ▸ hlt
    exact ⟨values[i], List.getElem?_eq_getElem hlt', hcells i hlt hlt'⟩
  constructor
  · intro haligned
    refine ⟨hlength.trans haligned.width, fun i k column cell cell' hi hk hcelli hcellk => ?_⟩
    obtain ⟨value, hvi, hvalue⟩ := hcell i cell hcelli
    obtain ⟨value', hvk, hvalue'⟩ := hcell k cell' hcellk
    have hsame := haligned.repeated i k column hi hk
    rw [hvi, hvk] at hsame
    rw [hvalue, hvalue', Option.some.inj hsame]
  · intro htabular
    refine ⟨hlength.symm.trans htabular.width, fun i k column hi hk => ?_⟩
    have hget : ∀ n : Nat, header[n]? = some column →
        ∃ cell value, row.cells[n]? = some cell ∧ values[n]? = some value ∧
          cellValue cell.2 = .ok value := by
      intro n hn
      have hlt : n < row.cells.length :=
        htabular.width ▸ (List.getElem?_eq_some_iff.mp hn).1
      obtain ⟨value, hvalue, hdecoded⟩ := hcell n _ (List.getElem?_eq_getElem hlt)
      exact ⟨_, value, List.getElem?_eq_getElem hlt, hvalue, hdecoded⟩
    obtain ⟨cell, value, hcelli, hvi, hvalue⟩ := hget i hi
    obtain ⟨cell', value', hcellk, hvk, hvalue'⟩ := hget k hk
    have hsame := htabular.repeated i k column cell cell' hi hk hcelli hcellk
    rw [hvalue, hvalue'] at hsame
    rw [hvi, hvk, Except.ok.inj hsame]

/-- Lists that go together element by element have the properties that go together. -/
theorem forall₂_forall_mem_iff {α β : Type} {R : α → β → Prop} {P : α → Prop} {Q : β → Prop}
    {xs : List α} {ys : List β} (hall : List.Forall₂ R xs ys) (hiff : ∀ x y, R x y → (Q y ↔ P x)) :
    (∀ y ∈ ys, Q y) ↔ ∀ x ∈ xs, P x := by
  induction hall with
  | nil => simp
  | cons hxy _ ih => rw [List.forall_mem_cons, List.forall_mem_cons, hiff _ _ hxy, ih]

/-- The response to the rows of a stream carries the same data in both forms exactly if
the rows that it takes are tabular. -/
theorem sameData_of_collected {limit : Nat} {rows : List SqliteRow} {response : QueryResponse}
    {body : RowFormat → Value} (hcollected : Collected limit rows response)
    (harrays : (body .arrays).field "rows" = some (.array (response.rows.map .array)))
    (hobjects : (body .objects).field "rows" =
      some (rowsAsObjects response.columns response.rows)) :
    SameData response body ↔
      ∀ row ∈ rows.take limit, Tabular (headerOf (rows.take (limit + 1))) row := by
  rw [sameData_iff harrays hobjects, ← hcollected.columns]
  exact forall₂_forall_mem_iff hcollected.rows fun row values => aligned_iff_tabular

/-! ## The handlers -/

section

variable {D S : Type} (sqlx : Sqlx D S) (limit : Nat)

/-- The rows of the first `limit` are tabular under the header of the text. -/
def TabularText (id : Nat) (w : World D S) (request : SqlRequest) : Prop :=
  ∀ row ∈ (rowsBefore (stream sqlx.engine id w (request.compiled sqlx))).take limit,
    Tabular (headerOf
      ((rowsBefore (stream sqlx.engine id w (request.compiled sqlx))).take (limit + 1))) row

theorem query_sameData {acquired : Except AppError Unit} {reader : Nat} {patience : Patience}
    {request : SqlRequest} {server : Server D S} {response : QueryResponse}
    (hdone : (query sqlx limit acquired reader patience request server).2 = .done response) :
    SameData response response.body ↔
      TabularText sqlx limit (readerId reader) (server.onReader reader) request := by
  obtain ⟨rfl, hrun⟩ := (query_run sqlx limit acquired reader patience request server).2 _ hdone
  have hcollected := collected_of_done (drive_done_collect (queryBody_rowLoop limit) _ _ _ _ _ hrun)
  exact sameData_of_collected hcollected rfl rfl

theorem batchStatement_sameData {ahead : Nat → Nat} {patience : Nat} {w : World D S}
    {statement : SqlRequest} {result : BatchStatementResult}
    (hdone : (batchStatement sqlx limit ahead patience w statement).outcome = .done result) :
    SameData result.rows result.body ↔ TabularText sqlx limit writerId w statement := by
  have hrun := hdone
  rw [(batchStatement_run sqlx limit hdone).2] at hrun
  have hcollected := collected_of_done (drive_done_collect (batchBody_rowLoop limit) _ _ _ _ _ hrun)
  exact sameData_of_collected hcollected rfl rfl

/-- A batch that is answered regularly has one result for each statement. -/
theorem batch_results {acquired : Except AppError Unit} {patience : Patience}
    {request : BatchRequest} {server : Server D S} {response : BatchResponse}
    (hdone : (batch sqlx limit acquired patience request server).2 = .done response) :
    List.Forall₂ (fun statement result => ∃ patience' w,
      (batchStatement sqlx limit patience.ahead patience' w statement).outcome = .done result)
      request.statements response.results := by
  unfold batch at hdone
  split at hdone
  · simp at hdone
  · cases acquired with
    | error error => simp at hdone
    | ok _ => exact (runBatch_done sqlx limit hdone).2

/-- The two forms of a response of `query`, and of each result of a `batch`, carry the
same data exactly if the first `limit` rows of the text are tabular under its header. -/
theorem row_formats_alike :
    (∀ acquired reader patience request server response,
      (query sqlx limit acquired reader patience request server).2 = .done response →
      (SameData response response.body ↔
        TabularText sqlx limit (readerId reader) (server.onReader reader) request)) ∧
    ∀ acquired patience request server response,
      (batch sqlx limit acquired patience request server).2 = .done response →
      List.Forall₂ (fun statement result => ∃ patience' w,
        (batchStatement sqlx limit patience.ahead patience' w statement).outcome = .done result ∧
        (SameData result.rows result.body ↔ TabularText sqlx limit writerId w statement))
        request.statements response.results := by
  constructor
  · intro acquired reader patience request server response hdone
    exact query_sameData sqlx limit hdone
  · intro acquired patience request server response hdone
    apply (batch_results sqlx limit hdone).imp
    rintro statement result ⟨patience', w, hresult⟩
    exact ⟨patience', w, hresult, batchStatement_sameData sqlx limit hresult⟩

end

/-! ## Texts over no table -/

/-- A `SELECT` of constants. -/
def selectRow (cells : List (String × SqliteValue)) : Statement Unit ExecuteResult SqliteRow :=
  .read fun _ session _ => (session, [⟨cells⟩], none)

/-- A text with two columns, one with a name twice, and one with two result sets. -/
def constants : Sqlx Unit ExecuteResult where
  statements sql _ :=
    match sql with
    | "SELECT 1 AS a, 2 AS b" => [selectRow [("a", .integer 1), ("b", .integer 2)]]
    | "SELECT 1 AS a, 2 AS a" => [selectRow [("a", .integer 1), ("a", .integer 2)]]
    | "SELECT 1 AS a; SELECT 1 AS a, 2 AS b" =>
      [selectRow [("a", .integer 1)], selectRow [("a", .integer 1), ("b", .integer 2)]]
    | _ => [.invalid "syntax error"]
  engine := ⟨fun _ => none, id⟩
  toJson _ := ""

theorem row_formats_alike_selected :
    ∃ response,
      (query constants 10 (.ok ()) 0 9 (plainRequest "SELECT 1 AS a, 2 AS b")
        (.opened () ⟨0, 0⟩)).2 = .done response ∧ SameData response response.body := by
  refine ⟨_, rfl, ((row_formats_alike constants 10).1 (.ok ()) 0 9
    (plainRequest "SELECT 1 AS a, 2 AS b") (.opened () ⟨0, 0⟩) _ rfl).mpr ?_⟩
  intro row hrow
  obtain rfl := List.mem_singleton.mp hrow
  exact tabular_of_nodup (by decide) rfl

/-- Of two columns with one name, the objects keep one value.  Of a second result set
with more columns, the arrays have more values than there are columns. -/
theorem row_formats_differ :
    (∃ response,
      (query constants 10 (.ok ()) 0 9 (plainRequest "SELECT 1 AS a, 2 AS a")
        (.opened () ⟨0, 0⟩)).2 = .done response ∧ ¬ SameData response response.body) ∧
    ∃ response,
      (query constants 10 (.ok ()) 0 9 (plainRequest "SELECT 1 AS a; SELECT 1 AS a, 2 AS b")
        (.opened () ⟨0, 0⟩)).2 = .done response ∧ ¬ SameData response response.body := by
  refine ⟨⟨_, rfl, fun hsame => ?_⟩, _, rfl, fun hsame => ?_⟩
  · obtain ⟨value, harray, hobject⟩ := hsame.cell 0 0 "a" (by decide) rfl
    have hone : value = .number (.posInt 1) := (Option.some.inj harray).symm
    have htwo : value = .number (.posInt 2) := (Option.some.inj hobject).symm
    rw [hone] at htwo
    simp at htwo
  · have hwidth := hsame.width [.number (.posInt 1), .number (.posInt 2)]
      (List.mem_cons_of_mem _ List.mem_cons_self)
    exact absurd hwidth (by decide)

end Tinkiva.Api
