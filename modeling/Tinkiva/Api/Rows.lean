import Tinkiva.Api.Handlers

/-!
# The two row loops

`query` and `batch` collect rows by two copies of one loop, over two kinds of items.
`RowLoop` says what the copies have in common: an effect leaves the response alone, and
a row does what `pushRow` does to it.  `collect` is the loop over the rows alone, and
`drive_collect` says that every `RowLoop` has its outcome.

`Collected` is what a response should be, for the rows of a stream and a limit.
`collect_done` and `collect_failed` say when the loop ends in which way, and
`drive_beyond` that it neither decodes the first row over the limit nor looks at what
comes after it.
-/

namespace Tinkiva.Api

open LazyStream

variable {ω ε α : Type}

/-! ## The rows of a stream -/

/-- A finite stream of effects and rows, each with the world after its pull. -/
abbrev Items (ω ε : Type) := Stream ω ε (ExecuteResult ⊕ SqliteRow)

/-- The rows before the end of the stream or its error. -/
def rowsBefore : Items ω ε → List SqliteRow
  | [] | (_, .error _) :: _ => []
  | (_, .ok (.inl _)) :: rest => rowsBefore rest
  | (_, .ok (.inr row)) :: rest => row :: rowsBefore rest

/-- The error that ends the stream. -/
def errorOf : Items ω ε → Option ε
  | [] => none
  | (_, .error error) :: _ => some error
  | (_, .ok _) :: rest => errorOf rest

/-- `fetch`: the stream without the effects. -/
def fetch (items : Items ω ε) : Items ω ε :=
  items.filter fun pull =>
    match pull.2 with
    | .ok (.inl _) => false
    | .ok (.inr _) | .error _ => true

theorem rowsBefore_fetch (items : Items ω ε) : rowsBefore (fetch items) = rowsBefore items := by
  induction items with
  | nil => rfl
  | cons pull rest ih =>
    obtain ⟨w, error | effect | row⟩ := pull
    · rfl
    · exact ih
    · exact congrArg (row :: ·) ih

theorem errorOf_fetch (items : Items ω ε) : errorOf (fetch items) = errorOf items := by
  induction items with
  | nil => rfl
  | cons pull rest ih =>
    obtain ⟨w, error | effect | row⟩ := pull
    · rfl
    · exact ih
    · exact ih

/-! ## The loop over the rows -/

/-- The row loop, over rows that an error may follow. -/
def collect (limit : Nat) (error : Option AppError) (response : QueryResponse) :
    List SqliteRow → Outcome QueryResponse AppError
  | [] =>
    match error with
    | none => .done response
    | some error => .failed error
  | row :: rows =>
    match pushRow limit response row with
    | .next response => collect limit error response rows
    | .stop response => .done response
    | .fail error => .failed error

/-- A loop body that collects rows into the response that `view` reads and `put`
replaces. -/
structure RowLoop (body : α → ExecuteResult ⊕ SqliteRow → Flow α AppError) (limit : Nat)
    (view : α → QueryResponse) (put : α → QueryResponse → α) : Prop where
  effect : ∀ acc f, ∃ acc', body acc (.inl f) = .next acc' ∧ view acc' = view acc
  row : ∀ acc row, body acc (.inr row) = (pushRow limit (view acc) row).map (put acc)
  view_put : ∀ acc response, view (put acc response) = response

theorem queryBody_rowLoop (limit : Nat) : RowLoop (queryBody limit) limit id fun _ => id where
  effect response _ := ⟨response, rfl, rfl⟩
  row _ _ := (Flow.map_id _).symm
  view_put _ _ := rfl

theorem batchBody_rowLoop (limit : Nat) :
    RowLoop (batchBody limit) limit BatchStatementResult.rows
      fun result rows => { result with rows := rows } where
  effect _ _ := ⟨_, rfl, rfl⟩
  row result row := by
    rw [batchBody]
    cases pushRow limit result.rows row <;> rfl
  view_put _ _ := rfl

section Loop

variable {body : α → ExecuteResult ⊕ SqliteRow → Flow α AppError} {limit : Nat}
  {view : α → QueryResponse} {put : α → QueryResponse → α}

/-- A row loop has the outcome of the loop over the rows, or it is dropped before the
stream has ended. -/
theorem drive_cases (hbody : RowLoop body limit view put) (wrap : ε → AppError)
    (items : Items ω ε) (p : Nat) (w : ω) (acc : α) :
    (drive body wrap p w acc items).outcome.map view =
      collect limit ((errorOf items).map wrap) (view acc) (rowsBefore items) ∨
    ((drive body wrap p w acc items).outcome = .cancelled ∧ p ≤ items.length) := by
  induction items generalizing p w acc with
  | nil =>
    cases p with
    | zero => exact Or.inr ⟨rfl, Nat.le_refl 0⟩
    | succ p => exact Or.inl rfl
  | cons pull rest ih =>
    cases p with
    | zero => exact Or.inr ⟨rfl, Nat.zero_le _⟩
    | succ p =>
      obtain ⟨v, error | effect | row⟩ := pull
      · exact Or.inl rfl
      · obtain ⟨acc', hnext, hview⟩ := hbody.effect acc effect
        simp only [drive, hnext, rowsBefore, errorOf, ← hview, List.length_cons]
        exact (ih p v acc').imp_right fun h => ⟨h.1, Nat.succ_le_succ h.2⟩
      · simp only [drive, rowsBefore, errorOf, collect, hbody.row, List.length_cons]
        cases pushRow limit (view acc) row with
        | next response =>
          simp only [Flow.map]
          have hrest := ih p v (put acc response)
          rw [hbody.view_put] at hrest
          exact hrest.imp_right fun h => ⟨h.1, Nat.succ_le_succ h.2⟩
        | stop response => exact Or.inl (congrArg Outcome.done (hbody.view_put acc response))
        | fail error => exact Or.inl rfl

/-- A row loop that is not dropped has the outcome of the loop over the rows. -/
theorem drive_collect (hbody : RowLoop body limit view put) (wrap : ε → AppError)
    (items : Items ω ε) (p : Nat) (w : ω) (acc : α) (hp : items.length < p) :
    (drive body wrap p w acc items).outcome.map view =
      collect limit ((errorOf items).map wrap) (view acc) (rowsBefore items) :=
  (drive_cases hbody wrap items p w acc).resolve_right fun h => Nat.not_lt.mpr h.2 hp

/-- A row loop that ends well has the response of the loop over the rows. -/
theorem drive_done_collect (hbody : RowLoop body limit view put) (wrap : ε → AppError)
    (items : Items ω ε) (p : Nat) (w : ω) (acc : α) {acc' : α}
    (hdone : (drive body wrap p w acc items).outcome = .done acc') :
    collect limit ((errorOf items).map wrap) (view acc) (rowsBefore items) =
      .done (view acc') := by
  rcases drive_cases hbody wrap items p w acc with h | ⟨h, _⟩
  · rw [← h, hdone]
    rfl
  · rw [hdone] at h
    simp at h

/-- A row over the limit is not decoded.  Only its columns are read. -/
theorem pushRow_full {response : QueryResponse} {row row' : SqliteRow}
    (hfull : response.rows.length = limit) (hcolumns : row.columns = row'.columns) :
    ∃ response', pushRow limit response row = .stop response' ∧
      pushRow limit response row' = .stop response' := by
  have hread : response.readColumns row' = response.readColumns row := by
    simp only [QueryResponse.readColumns, hcolumns]
  refine ⟨{ response.readColumns row with truncated := true }, ?_, ?_⟩
  · simp [pushRow, hfull]
  · simp [pushRow, hfull, hread]

/-- A row that does not stop the loop is added to the response. -/
theorem pushRow_next {response response' : QueryResponse} {row : SqliteRow}
    (h : pushRow limit response row = .next response') :
    response'.rows.length = response.rows.length + 1 := by
  simp only [pushRow, QueryResponse.rows_readColumns] at h
  split at h
  · simp at h
  · split at h
    · obtain rfl := Flow.next.inj h
      exact List.length_append
    · simp at h

/-- The first row over the limit is not decoded, and nothing behind it is pulled: the
loop ends as it would with any such row at the end of the stream. -/
theorem drive_beyond (hbody : RowLoop body limit view put) (wrap : ε → AppError)
    (before after : Items ω ε) (p : Nat) (w v : ω) (acc : α) {row row' : SqliteRow}
    (hcolumns : row.columns = row'.columns)
    (hlimit : (view acc).rows.length + (rowsBefore before).length = limit) :
    drive body wrap p w acc (before ++ (v, .ok (.inr row)) :: after) =
      drive body wrap p w acc (before ++ [(v, .ok (.inr row'))]) := by
  induction before generalizing p w acc with
  | nil =>
    cases p with
    | zero => rfl
    | succ p =>
      obtain ⟨response, hrow, hrow'⟩ := pushRow_full hlimit hcolumns
      simp only [List.nil_append, drive, hbody.row, hrow, hrow', Flow.map]
  | cons pull rest ih =>
    cases p with
    | zero => rfl
    | succ p =>
      obtain ⟨u, error | effect | first⟩ := pull
      · rfl
      · obtain ⟨acc', hnext, hview⟩ := hbody.effect acc effect
        simp only [List.cons_append, drive, hnext]
        exact ih p u acc' (hview.symm ▸ hlimit)
      · simp only [List.cons_append, drive, hbody.row]
        cases hflow : pushRow limit (view acc) first with
        | next response =>
          simp only [Flow.map]
          apply ih p u _
          rw [hbody.view_put, pushRow_next hflow, Nat.add_right_comm]
          exact hlimit
        | stop response => rfl
        | fail error => rfl

end Loop

/-! ## What a response should be -/

/-- The values are those of the row. -/
def Decodes (row : SqliteRow) (values : List Value) : Prop := rowValues row = .ok values

/-- The names of the columns of the first row that has any. -/
def headerOf (rows : List SqliteRow) : List String :=
  ((rows.map SqliteRow.columns).find? fun columns => !columns.isEmpty).getD []

/-- The response to a stream with these rows, under the limit. -/
structure Collected (limit : Nat) (rows : List SqliteRow) (response : QueryResponse) : Prop where
  columns : response.columns = headerOf (rows.take (limit + 1))
  truncated : response.truncated = true ↔ limit < rows.length
  rows : List.Forall₂ Decodes (rows.take limit) response.rows

/-- The columns of a response that has read more rows. -/
theorem columns_readColumns (response : QueryResponse) (row : SqliteRow) (rows : List SqliteRow) :
    (if (response.readColumns row).columns.isEmpty then headerOf rows
      else (response.readColumns row).columns) =
    if response.columns.isEmpty then headerOf (row :: rows) else response.columns := by
  cases hcolumns : response.columns.isEmpty with
  | false => simp [QueryResponse.readColumns, hcolumns]
  | true =>
    simp only [QueryResponse.readColumns, hcolumns, if_true, headerOf, List.map_cons,
      List.find?_cons]
    cases hrow : row.columns.isEmpty <;> simp

/-- The loop ends well with what the rows say, seen from any place in the loop. -/
theorem collect_eq_done {limit : Nat} {error : Option AppError} {response response' : QueryResponse}
    {rows : List SqliteRow} (hroom : response.rows.length ≤ limit)
    (hfresh : response.truncated = false)
    (hdone : collect limit error response rows = .done response') :
    (response'.columns = if response.columns.isEmpty
        then headerOf (rows.take (limit - response.rows.length + 1)) else response.columns) ∧
      (∃ values, response'.rows = response.rows ++ values ∧
        List.Forall₂ Decodes (rows.take (limit - response.rows.length)) values) ∧
      (response'.truncated = true ↔ limit < response.rows.length + rows.length) ∧
      response'.format = response.format := by
  induction rows generalizing response with
  | nil =>
    cases error with
    | some error => simp [collect] at hdone
    | none =>
      obtain rfl := Outcome.done.inj hdone
      refine ⟨?_, ⟨[], (List.append_nil _).symm, by simp⟩, ?_, rfl⟩
      · cases hcolumns : response.columns with
        | nil => rfl
        | cons => rfl
      · simp [hfresh, hroom]
  | cons row rows ih =>
    have hcolumns := columns_readColumns response row
    have hformat : (response.readColumns row).format = response.format := by
      unfold QueryResponse.readColumns
      split <;> rfl
    by_cases hfull : response.rows.length = limit
    · simp only [collect, pushRow, QueryResponse.rows_readColumns, hfull, if_true] at hdone
      obtain rfl := Outcome.done.inj hdone
      refine ⟨?_, ⟨[], by simp, by simp [hfull]⟩, ?_, hformat⟩
      · have hnil := hcolumns []
        rw [hfull, Nat.sub_self, Nat.zero_add, List.take_succ_cons, List.take_zero, ← hnil]
        cases (response.readColumns row).columns <;> rfl
      · simp [hfull]
    · simp only [collect, pushRow, QueryResponse.rows_readColumns, hfull, if_false] at hdone
      cases hrow : rowValues row with
      | error e => simp [hrow] at hdone
      | ok values =>
        simp only [hrow] at hdone
        have htruncated : (response.readColumns row).truncated = false := by
          unfold QueryResponse.readColumns
          split <;> exact hfresh
        obtain ⟨hcols, ⟨values', hvalues, hall⟩, htrunc, hform⟩ := ih
          (by rw [List.length_append]; exact Nat.lt_of_le_of_ne hroom hfull) (by exact htruncated)
          hdone
        have hroom' : limit - response.rows.length = limit - (response.rows.length + 1) + 1 := by
          omega
        simp only [List.length_append, List.length_singleton] at hcols hvalues hall htrunc
        refine ⟨?_, ⟨values :: values', by simpa using hvalues, ?_⟩, ?_, hform.trans hformat⟩
        · rw [hcols, hroom', List.take_succ_cons, ← hcolumns]
        · rw [hroom', List.take_succ_cons]
          exact .cons hrow hall
        · rw [htrunc, List.length_cons]
          omega

/-- The loop fails on a row that it takes and cannot decode, or on the error of a stream
whose rows it has all taken. -/
theorem collect_eq_failed {limit : Nat} {error : Option AppError} {response : QueryResponse}
    {rows : List SqliteRow} (hroom : response.rows.length ≤ limit) :
    (∃ e, collect limit error response rows = .failed e) ↔
      (∃ row ∈ rows.take (limit - response.rows.length), ∃ e, rowValues row = .error e) ∨
        (response.rows.length + rows.length ≤ limit ∧ error.isSome = true) := by
  induction rows generalizing response with
  | nil => cases error <;> simp [collect, hroom]
  | cons row rows ih =>
    by_cases hfull : response.rows.length = limit
    · have hlt : ¬ limit + (rows.length + 1) ≤ limit := by omega
      simp [collect, pushRow, hfull, hlt]
    · have hroom' : limit - response.rows.length = limit - (response.rows.length + 1) + 1 := by
        omega
      rw [hroom', List.take_succ_cons]
      simp only [collect, pushRow, QueryResponse.rows_readColumns, hfull, if_false]
      cases hrow : rowValues row with
      | error e => simp [hrow]
      | ok values =>
        simp only
        rw [ih (by rw [List.length_append]; exact Nat.lt_of_le_of_ne hroom hfull)]
        simp [hrow, Nat.add_right_comm, Nat.add_assoc]

/-- The loop over the rows is not dropped. -/
theorem collect_ne_cancelled (limit : Nat) (error : Option AppError) (response : QueryResponse)
    (rows : List SqliteRow) : collect limit error response rows ≠ .cancelled := by
  induction rows generalizing response with
  | nil => cases error <;> simp [collect]
  | cons row rows ih =>
    simp only [collect]
    cases pushRow limit response row with
    | next response => exact ih response
    | stop response => simp
    | fail e => simp

/-! ## The loops of the handlers -/

section Handlers

variable {limit : Nat} {format : RowFormat} {wrap : ε → AppError} {items : Items ω ε} {p : Nat}
  {w : ω}

/-- The loop of `query`, which drops the effects, is the loop over the rows. -/
theorem query_collect (hp : items.length < p) :
    (drive (queryBody limit) wrap p w (.empty format) items).outcome =
      collect limit ((errorOf items).map wrap) (.empty format) (rowsBefore items) := by
  have hloop := drive_collect (queryBody_rowLoop limit) wrap items p w (.empty format) hp
  rw [id_eq] at hloop
  rw [← hloop]
  cases (drive (queryBody limit) wrap p w (.empty format) items).outcome <;> rfl

/-- So is the loop of `batch`, as far as the rows go. -/
theorem batch_collect (hp : items.length < p) :
    (drive (batchBody limit) wrap p w ⟨0, 0, .empty format⟩ items).outcome.map (·.rows) =
      collect limit ((errorOf items).map wrap) (.empty format) (rowsBefore items) :=
  drive_collect (batchBody_rowLoop limit) wrap items p w ⟨0, 0, .empty format⟩ hp

/-- A response to a whole request is the one that it should be. -/
theorem collected_of_done {error : Option AppError} {rows : List SqliteRow}
    {response : QueryResponse}
    (hdone : collect limit error (.empty format) rows = .done response) :
    Collected limit rows response := by
  obtain ⟨hcolumns, ⟨values, hvalues, hall⟩, htruncated, _⟩ :=
    collect_eq_done (Nat.zero_le limit) rfl hdone
  refine ⟨?_, ?_, ?_⟩
  · simpa [QueryResponse.empty] using hcolumns
  · simpa [QueryResponse.empty] using htruncated
  · rw [hvalues]
    simpa [QueryResponse.empty] using hall

/-- The header of rows that have columns is that of the first row. -/
theorem headerOf_take {rows : List SqliteRow} (hcolumns : ∀ row ∈ rows, row.columns ≠ [])
    (n : Nat) : headerOf (rows.take (n + 1)) = (rows.head?.map SqliteRow.columns).getD [] := by
  cases rows with
  | nil => rfl
  | cons row rows =>
    have hrow : row.columns.isEmpty = false := by
      simpa using hcolumns row List.mem_cons_self
    simp [headerOf, hrow]

end Handlers

/-- The row loop of `query` on the rows of a stream and the row loop of `batch` on the
whole stream have the same outcome, if neither is dropped and every row has a column.

* They end well or fail.
* On success the columns are those of the first row, the rows are the decoded first
  `limit` rows, and the response is truncated exactly if there are more.
* They fail exactly if one of these rows cannot be decoded, or if the stream errors with
  no more than `limit` rows before.
* The first row over the limit is not decoded, and no item behind it is pulled. -/
theorem row_loops_alike (limit : Nat) (format : RowFormat) (wrap : ε → AppError)
    (items : Items ω ε) (w : ω) {p q : Nat} (hp : (fetch items).length < p)
    (hq : items.length < q) (hcolumns : ∀ row ∈ rowsBefore items, row.columns ≠ []) :
    (drive (queryBody limit) wrap p w (.empty format) (fetch items)).outcome =
      (drive (batchBody limit) wrap q w ⟨0, 0, .empty format⟩ items).outcome.map (·.rows) ∧
    (drive (queryBody limit) wrap p w (.empty format) (fetch items)).outcome ≠ .cancelled ∧
    (∀ response,
      (drive (queryBody limit) wrap p w (.empty format) (fetch items)).outcome = .done response →
        response.columns = ((rowsBefore items).head?.map SqliteRow.columns).getD [] ∧
        List.Forall₂ Decodes ((rowsBefore items).take limit) response.rows ∧
        (response.truncated = true ↔ limit < (rowsBefore items).length)) ∧
    ((∃ error,
      (drive (queryBody limit) wrap p w (.empty format) (fetch items)).outcome = .failed error) ↔
        (∃ row ∈ (rowsBefore items).take limit, ∃ error, rowValues row = .error error) ∨
          ((rowsBefore items).length ≤ limit ∧ (errorOf items).isSome = true)) ∧
    (∀ before v row row' after, items = before ++ (v, .ok (.inr row)) :: after →
      (rowsBefore before).length = limit → row.columns = row'.columns →
      drive (queryBody limit) wrap p w (.empty format) (fetch items) =
        drive (queryBody limit) wrap p w (.empty format)
          (fetch (before ++ [(v, .ok (.inr row'))])) ∧
      drive (batchBody limit) wrap q w ⟨0, 0, .empty format⟩ items =
        drive (batchBody limit) wrap q w ⟨0, 0, .empty format⟩
          (before ++ [(v, .ok (.inr row'))])) := by
  have hquery : (drive (queryBody limit) wrap p w (.empty format) (fetch items)).outcome =
      collect limit ((errorOf (fetch items)).map wrap) (.empty format) (rowsBefore (fetch items)) :=
    query_collect hp
  rw [errorOf_fetch, rowsBefore_fetch] at hquery
  refine ⟨?_, ?_, fun response hdone => ?_, ?_, ?_⟩
  · rw [hquery, batch_collect hq]
  · rw [hquery]
    exact collect_ne_cancelled _ _ _ _
  · rw [hquery] at hdone
    have hresponse := collected_of_done hdone
    exact ⟨hresponse.columns.trans (headerOf_take hcolumns limit), hresponse.rows,
      hresponse.truncated⟩
  · rw [hquery, collect_eq_failed (Nat.zero_le limit)]
    simp [QueryResponse.empty]
  · rintro before v row row' after rfl hlimit hrow
    have hfetch : ∀ row₁ after₁, fetch (before ++ (v, .ok (.inr row₁)) :: after₁) =
        fetch before ++ (v, .ok (.inr row₁)) :: fetch (ε := ε) after₁ := by
      intro row₁ after₁
      simp [fetch]
    rw [hfetch, hfetch]
    refine ⟨?_, ?_⟩
    · apply drive_beyond (queryBody_rowLoop limit) wrap _ _ p w v _ hrow
      rw [rowsBefore_fetch]
      simpa [QueryResponse.empty] using hlimit
    · apply drive_beyond (batchBody_rowLoop limit) wrap _ _ q w v _ hrow
      simpa [QueryResponse.empty] using hlimit

/-- Two rows around the effect of a statement, and an error that a loop with the limit 1
does not come to. -/
def someItems : Items Nat String :=
  [(1, .ok (.inr ⟨[("n", .integer 7)]⟩)), (2, .ok (.inl ⟨1, 7⟩)),
    (3, .ok (.inr ⟨[("m", .text [255])]⟩)), (4, .error "disk I/O error")]

theorem row_loops_alike_truncated :
    (drive (queryBody 1) (fun text => .database ⟨false, text⟩) 5 0 (.empty .arrays)
      (fetch someItems)).outcome =
    (drive (batchBody 1) (fun text => .database ⟨false, text⟩) 5 0 ⟨0, 0, .empty .arrays⟩
      someItems).outcome.map (·.rows) :=
  (row_loops_alike 1 .arrays (fun text => .database ⟨false, text⟩) someItems 0 (p := 5) (q := 5)
    (by decide) (by decide) (by decide)).1

end Tinkiva.Api
