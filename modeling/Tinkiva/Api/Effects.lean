import Mathlib.Algebra.GroupWithZero.Nat
import Tinkiva.Api.Batch
import Tinkiva.Api.Service
import Tinkiva.Lib.Sqlite.Sight

/-!
# The effect of a text

`execute` drains the stream of a text, adds the rows affected of its effects and keeps
the last row id.  The loop of `batch` overwrites the effect that it has, and it leaves
the stream at the first row over the limit.  So the two report the same effect only if
one effect counts: the last one before that row.

`executeBody_effect` and `batchBody_effect` say what each loop makes of the effects in
its stream.  The streams are those of one text, by itself and in the transaction of the
batch, and `batch_execute_effect` puts the two loops side by side.  The streams may differ: a
statement such as `PRAGMA foreign_keys = OFF` does nothing inside a transaction.  They are the
same for a text that is blind to it (`yields_within`).
-/

namespace Tinkiva.Api

open Sqlite LazyStream

variable {ω ε D S : Type}

/-! ## The effects in a stream -/

/-- What a stream yields, without the worlds. -/
def outputs (items : Items ω ε) : List (Except ε (ExecuteResult ⊕ SqliteRow)) :=
  items.map Prod.snd

/-- The part of a stream before the first row over the limit. -/
def reached : Nat → List (Except ε (ExecuteResult ⊕ SqliteRow)) →
    List (Except ε (ExecuteResult ⊕ SqliteRow))
  | _, [] => []
  | 0, .ok (.inr _) :: _ => []
  | limit + 1, .ok (.inr row) :: rest => .ok (.inr row) :: reached limit rest
  | limit, output :: rest => output :: reached limit rest

/-- The effects among the outputs. -/
def effectsOf : List (Except ε (ExecuteResult ⊕ SqliteRow)) → List ExecuteResult
  | [] => []
  | .ok (.inl effect) :: rest => effect :: effectsOf rest
  | _ :: rest => effectsOf rest

theorem effectsOf_append (before after : List (Except ε (ExecuteResult ⊕ SqliteRow))) :
    effectsOf (before ++ after) = effectsOf before ++ effectsOf after := by
  induction before with
  | nil => rfl
  | cons output rest ih =>
    obtain error | effect | row := output
    · exact ih
    · exact congrArg (effect :: ·) ih
    · exact ih

theorem reached_initial (limit : Nat) (outs : List (Except ε (ExecuteResult ⊕ SqliteRow))) :
    reached limit outs <+: outs := by
  induction outs generalizing limit with
  | nil => exact List.prefix_refl _
  | cons output rest ih =>
    obtain error | effect | row := output
    · simpa [reached] using ih limit
    · simpa [reached] using ih limit
    · cases limit with
      | zero => exact List.nil_prefix
      | succ limit => simpa [reached] using ih limit

/-- What comes after some outputs is reached or not, whatever it is. -/
theorem reached_append (limit : Nat) (before : List (Except ε (ExecuteResult ⊕ SqliteRow))) :
    (∀ after, reached limit (before ++ after) = reached limit before) ∨
      ∃ rest, ∀ after, reached limit (before ++ after) = before ++ reached rest after := by
  induction before generalizing limit with
  | nil => exact Or.inr ⟨limit, fun _ => rfl⟩
  | cons output before ih =>
    obtain error | effect | row := output
    · rcases ih limit with h | ⟨rest, h⟩
      · exact Or.inl fun after => by simp [reached, h after]
      · exact Or.inr ⟨rest, fun after => by simp [reached, h after]⟩
    · rcases ih limit with h | ⟨rest, h⟩
      · exact Or.inl fun after => by simp [reached, h after]
      · exact Or.inr ⟨rest, fun after => by simp [reached, h after]⟩
    · cases limit with
      | zero => exact Or.inl fun _ => rfl
      | succ limit =>
        rcases ih limit with h | ⟨rest, h⟩
        · exact Or.inl fun after => by simp [reached, h after]
        · exact Or.inr ⟨rest, fun after => by simp [reached, h after]⟩

/-! ## What the loops make of them -/

/-- `rows_affected` and `last_insert_rowid` of a statement of a batch. -/
def BatchStatementResult.effect (result : BatchStatementResult) : ExecuteResult :=
  ⟨result.rowsAffected, result.lastInsertRowid⟩

section Loops

variable {wrap : ε → AppError} {items : Items ω ε} {p : Nat} {w : ω}

/-- `execute` adds the rows affected of all effects, and keeps the last row id. -/
theorem executeBody_effect {result result' : ExecuteResult}
    (hdone : (drive executeBody wrap p w result items).outcome = .done result') :
    result'.rowsAffected =
        result.rowsAffected + ((effectsOf (outputs items)).map ExecuteResult.rowsAffected).sum ∧
      result'.lastInsertRowid = ((effectsOf (outputs items)).getLastD result).lastInsertRowid := by
  induction items generalizing p w result with
  | nil =>
    cases p with
    | zero => simp [drive] at hdone
    | succ p =>
      obtain rfl := Outcome.done.inj hdone
      exact ⟨rfl, rfl⟩
  | cons pull rest ih =>
    cases p with
    | zero => simp [drive] at hdone
    | succ p =>
      obtain ⟨v, error | effect | row⟩ := pull
      · simp [drive] at hdone
      · obtain ⟨hrows, hrowid⟩ := ih (p := p) (w := v) hdone
        constructor
        · rw [hrows, Nat.add_assoc]
          rfl
        · rw [hrowid]
          show _ = ((effect :: effectsOf (outputs rest)).getLastD result).lastInsertRowid
          rw [List.getLastD_cons]
          cases effectsOf (outputs rest) <;> rfl
      · exact ih (p := p) (w := v) hdone

/-- `batch` keeps the last effect before the first row over the limit, and has seen no
error up to there. -/
theorem batchBody_effect {limit room : Nat} {result result' : BatchStatementResult}
    (hroom : result.rows.rows.length + room = limit)
    (hdone : (drive (batchBody limit) wrap p w result items).outcome = .done result') :
    (∀ output ∈ reached room (outputs items), ∃ item, output = .ok item) ∧
      result'.effect =
        (effectsOf (reached room (outputs items))).getLastD result.effect := by
  induction items generalizing p w room result with
  | nil =>
    cases p with
    | zero => simp [drive] at hdone
    | succ p =>
      obtain rfl := Outcome.done.inj hdone
      simp [outputs, reached, effectsOf]
  | cons pull rest ih =>
    cases p with
    | zero => simp [drive] at hdone
    | succ p =>
      obtain ⟨v, error | effect | row⟩ := pull
      · simp [drive] at hdone
      · obtain ⟨hall, heffect⟩ := ih (p := p) (w := v) (by exact hroom) hdone
        have hreached : reached room (outputs ((v, .ok (.inl effect)) :: rest)) =
            .ok (.inl effect) :: reached room (outputs rest) := by
          simp [outputs, reached]
        rw [hreached]
        refine ⟨List.forall_mem_cons.mpr ⟨⟨_, rfl⟩, hall⟩, ?_⟩
        rw [heffect, effectsOf, List.getLastD_cons]
        rfl
      · cases room with
        | zero =>
          simp only [drive, batchBody, pushRow, QueryResponse.rows_readColumns] at hdone
          rw [if_pos (by simpa using hroom)] at hdone
          obtain rfl := Outcome.done.inj hdone
          exact ⟨fun output h => absurd h List.not_mem_nil, rfl⟩
        | succ room =>
          have hnext : result.rows.rows.length ≠ limit := by omega
          simp only [drive, batchBody, pushRow, QueryResponse.rows_readColumns, if_neg hnext]
            at hdone
          have hreached : reached (room + 1) (outputs ((v, .ok (.inr row)) :: rest)) =
              .ok (.inr row) :: reached room (outputs rest) := rfl
          cases hvalues : rowValues row with
          | error error => simp [hvalues] at hdone
          | ok values =>
            simp only [hvalues] at hdone
            have hroom' : (result.rows.rows ++ [values]).length + room = limit := by
              rw [List.length_append, List.length_singleton]
              omega
            obtain ⟨hall, heffect⟩ := ih hroom' hdone
            rw [hreached]
            exact ⟨List.forall_mem_cons.mpr ⟨⟨_, rfl⟩, hall⟩, heffect⟩

end Loops

/-! ## The two accounts -/

/-- The part of a stream from the first row over the limit on. -/
def beyond (limit : Nat) (outs : List (Except ε (ExecuteResult ⊕ SqliteRow))) :
    List (Except ε (ExecuteResult ⊕ SqliteRow)) :=
  outs.drop (reached limit outs).length

theorem reached_beyond (limit : Nat) (outs : List (Except ε (ExecuteResult ⊕ SqliteRow))) :
    reached limit outs ++ beyond limit outs = outs :=
  (List.prefix_iff_eq_append.mp (reached_initial limit outs))

/-- All effects of one stream, added, are the last effect of the other. -/
structure SameAccount (added kept : List ExecuteResult) : Prop where
  rowsAffected : (added.map ExecuteResult.rowsAffected).sum = (kept.getLastD ⟨0, 0⟩).rowsAffected
  lastInsertRowid : (added.getLastD ⟨0, 0⟩).lastInsertRowid = (kept.getLastD ⟨0, 0⟩).lastInsertRowid

/-- Of the effects before and after a point, none counts but the last one before. -/
structure OneCounts (before after : List ExecuteResult) : Prop where
  rowsAffected : ∀ effect ∈ before.dropLast ++ after, effect.rowsAffected = 0
  lastInsertRowid : ((before ++ after).getLastD ⟨0, 0⟩).lastInsertRowid =
    (before.getLastD ⟨0, 0⟩).lastInsertRowid

/-- A sum is its last summand exactly if the others are zero. -/
theorem sum_eq_last (before : List ExecuteResult) :
    (before.map ExecuteResult.rowsAffected).sum =
      (before.dropLast.map ExecuteResult.rowsAffected).sum +
        (before.getLastD ⟨0, 0⟩).rowsAffected := by
  rcases List.eq_nil_or_concat' before with rfl | ⟨before, last, rfl⟩
  · rfl
  · simp

theorem sameAccount_append (before after : List ExecuteResult) :
    SameAccount (before ++ after) before ↔ OneCounts before after := by
  have hsum : ((before ++ after).map ExecuteResult.rowsAffected).sum =
      (before.getLastD ⟨0, 0⟩).rowsAffected ↔
        ∀ effect ∈ before.dropLast ++ after, effect.rowsAffected = 0 := by
    have hzero : ((before.dropLast ++ after).map ExecuteResult.rowsAffected).sum = 0 ↔
        ∀ effect ∈ before.dropLast ++ after, effect.rowsAffected = 0 := by
      rw [List.sum_eq_zero_iff_forall_eq_nat, List.forall_mem_map]
    rw [← hzero, List.map_append, List.map_append, List.sum_append, List.sum_append, sum_eq_last]
    omega
  exact ⟨fun h => ⟨hsum.mp h.1, h.2⟩, fun h => ⟨hsum.mpr h.1, h.2⟩⟩

/-! ## One text in both handlers -/

section

variable (sqlx : Sqlx D S) (limit : Nat)

/-- What the text of a request yields from world `w` on the writer. -/
def yields (w : World D S) (request : SqlRequest) :
    List (Except Error (ExecuteResult ⊕ SqliteRow)) :=
  outputs (stream sqlx.engine writerId w (request.compiled sqlx))

/-- A batch of one statement that is answered regularly has begun its transaction, and has one
result. -/
theorem batch_one {acquired : Except AppError Unit} {patience : Patience} {request : SqlRequest}
    {server : Server D S} {response : BatchResponse}
    (hdone : (batch sqlx limit acquired patience ⟨[request]⟩ server).2 = .done response) :
    (Driver.begin SqliteRow sqlx.engine writerId server.onWriter).2 = .ok () ∧
      ∃ result, response.results = [result] ∧
        (∀ output ∈ reached limit (yields sqlx (begunWriter sqlx server.onWriter) request),
          ∃ item, output = .ok item) ∧
        result.effect = (effectsOf (reached limit
          (yields sqlx (begunWriter sqlx server.onWriter) request))).getLastD ⟨0, 0⟩ := by
  unfold batch at hdone
  split at hdone
  · simp at hdone
  · cases acquired with
    | error error => simp at hdone
    | ok _ =>
      obtain ⟨_, hbegun⟩ := beginBatch_cases sqlx patience.waits server.onWriter
      simp only [runBatch] at hdone
      generalize beginBatch sqlx patience.waits server.onWriter = began at hbegun hdone
      obtain ⟨w, waits | error | _⟩ := began
      · obtain ⟨hok, rfl⟩ := hbegun waits rfl
        refine ⟨hok, ?_⟩
        simp only [closeBatch] at hdone
        split at hdone
        · rename_i results _ hresults _
          simp only [batchStatements] at hresults
          split at hresults
          · rename_i result hresult
            obtain rfl := Outcome.done.inj hresults
            obtain ⟨_, heq⟩ := batchStatement_run sqlx limit hresult
            rw [heq] at hresult
            have heffect := batchBody_effect (Nat.zero_add limit) hresult
            rcases commitBatch_cases sqlx ([] ++ [result]) _ with ⟨_, h⟩ | ⟨⟨error, h⟩, _⟩
            · rw [h] at hdone
              obtain rfl := Outcome.done.inj hdone
              exact ⟨result, rfl, heffect⟩
            · exact absurd (h.symm.trans hdone) (by simp)
          · simp at hresults
          · simp at hresults
        · simp at hdone
        · simp at hdone
        · simp at hdone
      · simp at hdone
      · simp at hdone

/-- The sight of a connection outside a transaction. -/
def sightOf (w : World D S) : Sight D S := ⟨w.conn.session, w.conn.queryOnly, w.file.contents, []⟩

/-- In a batch, a blind text that ends no transaction yields up to the first row over the limit
what it yields in an `execute`, if it has no error in either. -/
theorem yields_within {request : SqlRequest} {server : Server D S}
    (hdepth : server.writer.depth = 0)
    (hbegin : (Driver.begin SqliteRow sqlx.engine writerId server.onWriter).2 = .ok ())
    (hplain : ∀ s ∈ request.compiled sqlx, s.endsTransaction = false ∧ s.Blind)
    (hall : ∀ output ∈ yields sqlx server.onWriter request, ∃ item, output = .ok item)
    (hreached : ∀ output ∈ reached limit (yields sqlx (begunWriter sqlx server.onWriter) request),
      ∃ item, output = .ok item) :
    reached limit (yields sqlx (begunWriter sqlx server.onWriter) request) =
      reached limit (yields sqlx server.onWriter request) := by
  obtain ⟨hnone, hbegan⟩ := Driver.begin_begun SqliteRow sqlx.engine writerId hdepth hbegin
  have houter : server.onWriter.Sees (sightOf server.onWriter) :=
    .of_none rfl rfl hnone rfl rfl
  have hinner : (begunWriter sqlx server.onWriter).Sees (sightOf server.onWriter) := by
    rw [begunWriter, hbegan]
    exact .of_some rfl rfl rfl ⟨rfl, rfl, fun _ => ⟨rfl, rfl, by simp [sightOf]⟩⟩
  have hbegun : (begunWriter sqlx server.onWriter).Begun := by
    rw [begunWriter, hbegan]
    exact ⟨_, rfl, rfl⟩
  have hpulls : ∀ pull ∈ stream sqlx.engine writerId server.onWriter (request.compiled sqlx),
      ∃ item, pull.2 = .ok item :=
    fun pull hpull => hall pull.2 (List.mem_map_of_mem hpull)
  rcases stream_within sqlx.engine writerId hinner houter hbegun hplain hpulls with
    heq | ⟨before, error, heq, after, hafter⟩
  · exact congrArg (reached limit) heq
  · show reached limit (List.map Prod.snd _) = reached limit (List.map Prod.snd _)
    rw [yields, outputs, heq] at hreached
    rw [heq, ← hafter]
    rcases reached_append limit before with hcut | ⟨rest, hrest⟩
    · rw [hcut, hcut]
    · -- The error would have been reached.
      rw [hrest] at hreached
      obtain ⟨item, hitem⟩ := hreached (.error error) (by simp [reached])
      simp at hitem

/-- What the effects of a text are in the two handlers, and when these report the same.
`execute` adds the effects of the whole text, `batch` keeps the last one before the first
row over the limit.  If the text has no `COMMIT` and no `ROLLBACK` and is blind, and the
transaction of the batch is a `BEGIN`, the effects are the same ones, and the reports agree
exactly if only the last one before that row counts. -/
theorem batch_execute_effect {acquired acquired' : Except AppError Unit}
    {patience patience' : Patience} {request : SqlRequest} {server : Server D S}
    {result : ExecuteResult} {response : BatchResponse}
    (hexecute : (execute sqlx acquired patience request server).2 = .done result)
    (hbatch : (batch sqlx limit acquired' patience' ⟨[request]⟩ server).2 = .done response) :
    ∃ statement, response.results = [statement] ∧
      (statement.effect = result ↔
        SameAccount (effectsOf (yields sqlx server.onWriter request))
          (effectsOf (reached limit
            (yields sqlx (begunWriter sqlx server.onWriter) request)))) ∧
      (server.writer.depth = 0 →
        (∀ s ∈ request.compiled sqlx, s.endsTransaction = false ∧ s.Blind) →
        (statement.effect = result ↔
          OneCounts (effectsOf (reached limit (yields sqlx server.onWriter request)))
            (effectsOf (beyond limit (yields sqlx server.onWriter request))))) := by
  obtain ⟨hbegin, statement, hresults, hreached, heffect⟩ := batch_one sqlx limit hbatch
  obtain ⟨rfl, hrun⟩ := (execute_run sqlx acquired patience request server).2 result hexecute
  obtain ⟨hpulls, _⟩ := executeBody_done hrun
  have hall : ∀ output ∈ yields sqlx server.onWriter request, ∃ item, output = .ok item := by
    intro output houtput
    obtain ⟨pull, hpull, rfl⟩ := List.mem_map.mp houtput
    exact hpulls pull hpull
  obtain ⟨hrows, hrowid⟩ := executeBody_effect hrun
  rw [Nat.zero_add] at hrows
  have haccount : statement.effect = result ↔
      SameAccount (effectsOf (yields sqlx server.onWriter request))
        (effectsOf (reached limit (yields sqlx (begunWriter sqlx server.onWriter) request))) := by
    rw [heffect]
    constructor
    · rintro rfl
      exact ⟨hrows.symm, hrowid.symm⟩
    · rintro ⟨hsum, hlast⟩
      obtain ⟨rows, rowid⟩ := result
      exact congrArg₂ ExecuteResult.mk (hsum.symm.trans hrows.symm) (hlast.symm.trans hrowid.symm)
  refine ⟨statement, hresults, haccount, fun hdepth hplain => ?_⟩
  rw [haccount, yields_within sqlx limit hdepth hbegin hplain hall hreached, ← sameAccount_append,
    ← effectsOf_append, reached_beyond]

end

/-! ## Texts with several effects -/

/-- `INSERT INTO t VALUES (..), .. RETURNING n`. -/
def insertReturning (numbers : List Int64) : Statement (List Int64) ExecuteResult SqliteRow :=
  .write fun _ _ stored =>
    (⟨numbers.length, Int64.ofNat (stored.length + numbers.length)⟩,
      .ok (numbers.map fun n => ⟨[("n", .integer n)]⟩, stored ++ numbers))

/-- Two texts over the table `t`: two statements, and a statement that returns its rows. -/
def inserts : Sqlx (List Int64) ExecuteResult where
  statements sql _ :=
    match sql with
    | "INSERT INTO t VALUES (1); INSERT INTO t VALUES (2)" => [insertNumber 1, insertNumber 2]
    | "INSERT INTO t VALUES (1), (2) RETURNING n" => [insertReturning [1, 2]]
    | _ => [.invalid "syntax error"]
  engine := ⟨fun _ => none, id⟩
  toJson _ := ""

/-- A text whose rows are within the limit. -/
theorem batch_execute_effect_returning :
    ∃ statement : BatchStatementResult, statement.effect = ⟨2, 2⟩ ∧ ∃ response,
      (batch inserts 2 (.ok ()) 9 ⟨[plainRequest "INSERT INTO t VALUES (1), (2) RETURNING n"]⟩
        (.opened [] ⟨0, 0⟩)).2 = .done response ∧ response.results = [statement] := by
  have hexecute : (execute inserts (.ok ()) 9
      (plainRequest "INSERT INTO t VALUES (1), (2) RETURNING n") (.opened [] ⟨0, 0⟩)).2 =
        .done ⟨2, 2⟩ := rfl
  obtain ⟨response, hbatch⟩ : ∃ response, (batch inserts 2 (.ok ()) 9
      ⟨[plainRequest "INSERT INTO t VALUES (1), (2) RETURNING n"]⟩ (.opened [] ⟨0, 0⟩)).2 =
        .done response := ⟨_, rfl⟩
  obtain ⟨statement, hresults, hsame, _⟩ := batch_execute_effect inserts 2 hexecute hbatch
  exact ⟨statement, hsame.mpr ⟨by decide, by decide⟩, response, hbatch, hresults⟩

/-- Two `INSERT`s in one text: `execute` reports both, `batch` the second.  Two rows
returned by one `INSERT` under the limit 1: `execute` reports both, `batch` none. -/
theorem batch_execute_effect_differs :
    (∃ response statement,
      (execute inserts (.ok ()) 9
        (plainRequest "INSERT INTO t VALUES (1); INSERT INTO t VALUES (2)")
        (.opened [] ⟨0, 0⟩)).2 = .done ⟨2, 2⟩ ∧
      (batch inserts 10 (.ok ()) 9
        ⟨[plainRequest "INSERT INTO t VALUES (1); INSERT INTO t VALUES (2)"]⟩
        (.opened [] ⟨0, 0⟩)).2 = .done response ∧
      response.results = [statement] ∧ statement.effect = ⟨1, 2⟩) ∧
    ∃ response statement,
      (execute inserts (.ok ()) 9 (plainRequest "INSERT INTO t VALUES (1), (2) RETURNING n")
        (.opened [] ⟨0, 0⟩)).2 = .done ⟨2, 2⟩ ∧
      (batch inserts 1 (.ok ()) 9 ⟨[plainRequest "INSERT INTO t VALUES (1), (2) RETURNING n"]⟩
        (.opened [] ⟨0, 0⟩)).2 = .done response ∧
      response.results = [statement] ∧ statement.effect = ⟨0, 0⟩ :=
  ⟨⟨_, _, rfl, rfl, rfl, rfl⟩, _, _, rfl, rfl, rfl, rfl⟩

end Tinkiva.Api
