import Tinkiva.Api.Rows
import Tinkiva.Lib.StepSystem

/-!
# Histories of requests

The requests on one open database, one after the other.  What a request cannot know
is in the call: the answer of `manager.acquire`, the reader connection that the pool
gives, the wait at which the handler is dropped, and how far the connection is ahead of it.

`query_run` and `execute_run` bring the two handlers down to the loop over the
statements of the request; a request that is refused before it reaches SQLite is a
loop over no statements.  `queryBody_done` and `executeBody_done` say what the loop
has read when it ends well.
-/

namespace Tinkiva.Api

open Sqlite LazyStream

variable {D S : Type}

/-- A request on the database. -/
inductive Call where
  | query (acquired : Except AppError Unit) (reader : Nat) (patience : Patience)
    (request : SqlRequest)
  | execute (acquired : Except AppError Unit) (patience : Patience) (request : SqlRequest)
  | batch (acquired : Except AppError Unit) (patience : Patience) (request : BatchRequest)

section

variable (sqlx : Sqlx D S) (limit : Nat)

/-- The server after a request. -/
def Server.serve (server : Server D S) : Call → Server D S
  | .query acquired reader patience request =>
    (Api.query sqlx limit acquired reader patience request server).1
  | .execute acquired patience request => (Api.execute sqlx acquired patience request server).1
  | .batch acquired patience request => (Api.batch sqlx limit acquired patience request server).1

/-- The histories of requests on a database that has just been opened. -/
def service (contents : D) (session : S) : StepSystem (Server D S) Call where
  init := .opened contents session
  step server call := some (server.serve sqlx limit call)

/-! ## Down to the loop -/

/-- The statements that a request runs, if it gets a lease. -/
def SqlRequest.sent (acquired : Except AppError Unit) (request : SqlRequest) :
    List (Statement D S SqliteRow) :=
  match acquired with
  | .ok () => request.compiled sqlx
  | .error _ => []

/-- The loop of `query` over the statements of the request. -/
def queryRun (acquired : Except AppError Unit) (reader : Nat) (patience : Patience)
    (request : SqlRequest) (server : Server D S) : Driven (World D S) QueryResponse AppError :=
  driveAhead (queryBody limit) databaseError patience.ahead patience.waits (server.onReader reader)
    (.empty request.format)
    (stream sqlx.engine (readerId reader) (server.onReader reader) (request.sent sqlx acquired))

/-- The loop of `execute` over the statements of the request. -/
def executeRun (acquired : Except AppError Unit) (patience : Patience) (request : SqlRequest)
    (server : Server D S) : Driven (World D S) ExecuteResult AppError :=
  driveAhead executeBody databaseError patience.ahead patience.waits server.onWriter ⟨0, 0⟩
    (stream sqlx.engine writerId server.onWriter (request.sent sqlx acquired))

/-- A loop over no statements leaves the world. -/
theorem drive_nil {ω ε ι α φ : Type} (body : α → ι → Flow α φ) (wrap : ε → φ) (ahead : Nat → Nat)
    (patience : Nat) (w : ω) (acc : α) :
    (driveAhead body wrap ahead patience w acc []).world = w :=
  driveAhead_world (I := (· = w)) patience acc rfl fun _ hpull => absurd hpull List.not_mem_nil

theorem query_run (acquired : Except AppError Unit) (reader : Nat) (patience : Patience)
    (request : SqlRequest) (server : Server D S) :
    (query sqlx limit acquired reader patience request server).1 = server.setReader reader
        (queryRun sqlx limit acquired reader patience request server).world ∧
      ∀ response, (query sqlx limit acquired reader patience request server).2 = .done response →
        acquired = .ok () ∧
        (queryRun sqlx limit acquired reader patience request server).outcome = .done response := by
  have hrefused : request.sent sqlx acquired = [] →
      server = server.setReader reader
        (queryRun sqlx limit acquired reader patience request server).world := by
    intro hnil
    rw [queryRun, hnil, stream, drive_nil]
    simp [Server.setReader, Server.onReader]
  unfold query
  split
  · rename_i hvalid
    refine ⟨hrefused ?_, fun response h => by simp at h⟩
    cases acquired <;> simp [SqlRequest.sent, SqlRequest.compiled, hvalid]
  · rename_i hvalid
    cases acquired with
    | error error => exact ⟨hrefused rfl, fun response h => by simp at h⟩
    | ok _ =>
      simp only
      split
      · rename_i hbind
        refine ⟨hrefused ?_, fun response h => by simp at h⟩
        simp [SqlRequest.sent, SqlRequest.compiled, hvalid, hbind]
      · rename_i arguments hbind
        have hsent : request.sent sqlx (.ok ()) = sqlx.statements request.sql arguments :=
          request.compiled_eq sqlx hvalid hbind
        rw [queryRun, hsent]
        exact ⟨rfl, fun response h => ⟨trivial, h⟩⟩

theorem execute_run (acquired : Except AppError Unit) (patience : Patience) (request : SqlRequest)
    (server : Server D S) :
    (execute sqlx acquired patience request server).1 =
        server.setWriter (executeRun sqlx acquired patience request server).world ∧
      ∀ result, (execute sqlx acquired patience request server).2 = .done result →
        acquired = .ok () ∧
        (executeRun sqlx acquired patience request server).outcome = .done result := by
  have hrefused : request.sent sqlx acquired = [] →
      server = server.setWriter (executeRun sqlx acquired patience request server).world := by
    intro hnil
    rw [executeRun, hnil, stream, drive_nil]
    rfl
  unfold execute
  split
  · rename_i hvalid
    refine ⟨hrefused ?_, fun result h => by simp at h⟩
    cases acquired <;> simp [SqlRequest.sent, SqlRequest.compiled, hvalid]
  · rename_i hvalid
    cases acquired with
    | error error => exact ⟨hrefused rfl, fun result h => by simp at h⟩
    | ok _ =>
      simp only
      split
      · rename_i hbind
        refine ⟨hrefused ?_, fun result h => by simp at h⟩
        simp [SqlRequest.sent, SqlRequest.compiled, hvalid, hbind]
      · rename_i arguments hbind
        have hsent : request.sent sqlx (.ok ()) = sqlx.statements request.sql arguments :=
          request.compiled_eq sqlx hvalid hbind
        rw [executeRun, hsent]
        exact ⟨rfl, fun result h => ⟨trivial, h⟩⟩

end

/-! ## What the loop has read -/

/-- The loop of `query` ends well in two ways.  It has read the whole stream, which had
no error, or it has read rows up to the limit and has seen one more. -/
theorem queryBody_done {limit : Nat} {stream : Stream (World D S) Error (ExecuteResult ⊕ SqliteRow)}
    {patience : Nat} {w : World D S} {response response' : QueryResponse}
    (hroom : response.rows.length ≤ limit)
    (hdone : (drive (queryBody limit) databaseError patience w response stream).outcome =
      .done response') :
    ∃ rows values, response'.rows = response.rows ++ values ∧ List.Forall₂ Decodes rows values ∧
      ((rows = rowsOf stream ∧ (∀ pull ∈ stream, ∃ item, pull.2 = .ok item) ∧
          response'.rows.length ≤ limit) ∨
        (rows <+: rowsOf stream ∧ response'.rows.length = limit ∧ response'.truncated = true)) := by
  induction stream generalizing patience w response with
  | nil => cases patience with
    | zero => simp [drive] at hdone
    | succ patience =>
      obtain rfl := Outcome.done.inj hdone
      exact ⟨[], [], (List.append_nil _).symm, .nil, Or.inl ⟨rfl, by simp, hroom⟩⟩
  | cons pull rest ih =>
    obtain ⟨v, item⟩ := pull
    cases patience with
    | zero => simp [drive] at hdone
    | succ patience =>
      cases item with
      | error e => simp [drive] at hdone
      | ok item =>
        cases item with
        | inl effect =>
          obtain ⟨rows, values, hrows, hvalues, hend⟩ := ih hroom hdone
          refine ⟨rows, values, hrows, hvalues, hend.imp ?_ ?_⟩
          · rintro ⟨rfl, hall, hle⟩
            exact ⟨rfl, by simpa using hall, hle⟩
          · exact fun h => h
        | inr row =>
          have hrest : rowsOf ((v, .ok (.inr row)) :: rest) = row :: rowsOf rest := rfl
          by_cases hfull : response.rows.length = limit
          · simp only [drive, queryBody, pushRow, QueryResponse.rows_readColumns, hfull,
              if_true] at hdone
            obtain rfl := Outcome.done.inj hdone
            exact ⟨[], [], by simp, .nil, Or.inr ⟨List.nil_prefix, by simpa using hfull, rfl⟩⟩
          · simp only [drive, queryBody, pushRow, QueryResponse.rows_readColumns, hfull,
              if_false] at hdone
            cases hrow : rowValues row with
            | error error => simp [hrow] at hdone
            | ok values₁ =>
              simp only [hrow] at hdone
              obtain ⟨rows, values, hrows, hvalues, hend⟩ := ih
                (by simp; omega) hdone
              refine ⟨row :: rows, values₁ :: values, ?_, .cons hrow hvalues, hend.imp ?_ ?_⟩
              · simpa using hrows
              · rintro ⟨rfl, hall, hle⟩
                exact ⟨rfl, by simpa using hall, hle⟩
              · rintro ⟨hpre, hlen, htruncated⟩
                exact ⟨hrest ▸ List.cons_prefix_cons.mpr ⟨rfl, hpre⟩, hlen, htruncated⟩

/-- The loop of `execute` ends well only at the end of a stream without an error. -/
theorem executeBody_done {stream : Stream (World D S) Error (ExecuteResult ⊕ SqliteRow)}
    {ahead : Nat → Nat} {patience : Nat} {w : World D S} {result result' : ExecuteResult}
    (hdone : (driveAhead executeBody databaseError ahead patience w result stream).outcome =
      .done result') :
    (∀ pull ∈ stream, ∃ item, pull.2 = .ok item) ∧
      (driveAhead executeBody databaseError ahead patience w result stream).world =
        (stream.map Prod.fst).getLastD w := by
  rcases driveAhead_done ahead patience hdone with h | ⟨result, item, hstop⟩
  · exact h
  · cases item <;> simp [executeBody] at hstop

end Tinkiva.Api
