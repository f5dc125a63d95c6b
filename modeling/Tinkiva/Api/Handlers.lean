import Tinkiva.Api.Value
import Tinkiva.Lib.Sqlite.Driver
import Tinkiva.Lib.Sqlite.Text

/-!
# The database handlers

`query`, `execute` and `batch` of `src/src/api.rs`, on one open database.  A
`Server` is what the requests share: the database file, the one writer connection,
and the reader connections of `open_pools`, which are opened with `query_only`.

A text reaches SQLite through `sqlx`: `Sqlx` says which statements a text with its
arguments is, when a commit is refused, and what a connection reports of a
statement.  `sqlx` runs the statements of a text on a thread of its own, which hands the
rows and the effects to the handler through a channel.  So the connection may be ahead of
the handler, and if the handler leaves the stream early, it stops at some item behind the
last one that the handler has taken.  The transaction of a batch is one of `sqlx`, with its
count of open transactions (`Sqlite.Driver`).

`acquired` is the answer of `manager.acquire`.  A handler may be dropped at any of
its waits; it is given as many as its `Patience` says.  A connection goes back to its
pool as it is.  A `Transaction` that is dropped before its commit is rolled back
first.
-/

namespace Tinkiva.Api

open Sqlite LazyStream

/-- `RowFormat`. -/
inductive RowFormat where
  | objects
  | arrays
  deriving DecidableEq, Repr

/-- `SqlRequest`. -/
structure SqlRequest where
  sql : String
  params : List Value
  format : RowFormat

/-- `BatchRequest`. -/
structure BatchRequest where
  statements : List SqlRequest

/-- `QueryResponse`. -/
structure QueryResponse where
  columns : List String
  rows : List (List Value)
  format : RowFormat
  truncated : Bool

/-- `QueryResponse::empty`. -/
def QueryResponse.empty (format : RowFormat) : QueryResponse := ⟨[], [], format, false⟩

/-- `ExecuteResult`, and `sqlx::sqlite::SqliteQueryResult`. -/
structure ExecuteResult where
  rowsAffected : Nat
  lastInsertRowid : Int64
  deriving DecidableEq, Repr

/-- `BatchStatementResult`. -/
structure BatchStatementResult where
  rowsAffected : Nat
  lastInsertRowid : Int64
  rows : QueryResponse

/-- `BatchResponse`. -/
structure BatchResponse where
  results : List BatchStatementResult

/-- What `sqlx` and SQLite make of a text.  `toJson` is `Value::to_string`. -/
structure Sqlx (D S : Type) where
  statements : String → List SqliteValue → List (Statement D S SqliteRow)
  engine : Engine D S ExecuteResult
  toJson : Value → String

/-- The file, the writer connection and the reader connections. -/
structure Server (D S : Type) where
  file : File D
  writer : Connection D S
  readers : Nat → Connection D S

variable {D S : Type}

namespace Server

/-- The connections as `open_pools` opens them. -/
def opened (contents : D) (session : S) : Server D S where
  file := ⟨contents, 0, none⟩
  writer := ⟨session, false, none, 0⟩
  readers := fun _ => ⟨session, true, none, 0⟩

def onWriter (server : Server D S) : World D S := ⟨server.file, server.writer⟩

def onReader (server : Server D S) (reader : Nat) : World D S :=
  ⟨server.file, server.readers reader⟩

def setWriter (server : Server D S) (w : World D S) : Server D S :=
  { server with file := w.file, writer := w.conn }

def setReader (server : Server D S) (reader : Nat) (w : World D S) : Server D S :=
  { server with file := w.file, readers := Function.update server.readers reader w.conn }

end Server

/-- The number of the writer connection. -/
def writerId : Nat := 0

/-- The number of a reader connection. -/
def readerId (reader : Nat) : Nat := reader + 1

/-- An error of SQLite as `sqlx` reports it. -/
def sqlxError : Error → SqlxError
  | .busy => ⟨false, "database is locked"⟩
  | .busySnapshot => ⟨false, "database is locked"⟩
  | .readOnly => ⟨false, "attempt to write a readonly database"⟩
  | .noTransaction => ⟨false, "no transaction is active"⟩
  | .withinTransaction => ⟨false, "cannot start a transaction within a transaction"⟩
  | .noSuchSavepoint name => ⟨false, "no such savepoint: " ++ name⟩
  | .failed message | .aborted message => ⟨false, message⟩

/-- An error of a statement as the answer of a handler. -/
def databaseError (error : Error) : AppError := .database (sqlxError error)

abbrev Reply (α : Type) := Outcome α AppError

/-- The waits of a handler: how many it is given before it is dropped, and how many items the
connection is ahead when the handler leaves a stream, by the waits that it has left then. -/
structure Patience where
  waits : Nat
  ahead : Nat → Nat

/-- A handler that is never behind its connection. -/
instance (waits : Nat) : OfNat Patience waits := ⟨⟨waits, fun _ => 0⟩⟩

/-! ## The loops over the stream -/

/-- The column names are read once, at the first row. -/
def QueryResponse.readColumns (response : QueryResponse) (row : SqliteRow) : QueryResponse :=
  if response.columns.isEmpty then { response with columns := row.columns } else response

@[simp] theorem QueryResponse.rows_readColumns (response : QueryResponse) (row : SqliteRow) :
    (response.readColumns row).rows = response.rows := by
  unfold readColumns
  split <;> rfl

/-- A row in the loops of `query` and of `batch`. -/
def pushRow (limit : Nat) (response : QueryResponse) (row : SqliteRow) :
    Flow QueryResponse AppError :=
  let response := response.readColumns row
  if response.rows.length = limit then .stop { response with truncated := true }
  else
    match rowValues row with
    | .ok values => .next { response with rows := response.rows ++ [values] }
    | .error error => .fail (.database error)

/-- The loop body of `query`.  `fetch` drops the effects. -/
def queryBody (limit : Nat) (response : QueryResponse) :
    ExecuteResult ⊕ SqliteRow → Flow QueryResponse AppError
  | .inl _ => .next response
  | .inr row => pushRow limit response row

/-- The loop inside `Query::execute`: it drains the stream, adds the rows affected
and keeps the last row id. -/
def executeBody (result : ExecuteResult) :
    ExecuteResult ⊕ SqliteRow → Flow ExecuteResult AppError
  | .inl effect => .next ⟨result.rowsAffected + effect.rowsAffected, effect.lastInsertRowid⟩
  | .inr _ => .next result

/-- The loop body of `batch`. -/
def batchBody (limit : Nat) (result : BatchStatementResult) :
    ExecuteResult ⊕ SqliteRow → Flow BatchStatementResult AppError
  | .inl effect =>
    .next { result with
      rowsAffected := effect.rowsAffected
      lastInsertRowid := effect.lastInsertRowid }
  | .inr row =>
    match pushRow limit result.rows row with
    | .next rows => .next { result with rows := rows }
    | .stop rows => .stop { result with rows := rows }
    | .fail error => .fail error

/-! ## The handlers -/

section Handlers

variable (sqlx : Sqlx D S) (limit : Nat)

/-- A statement with its arguments runs on connection `id`, under a loop body. -/
def runText {α : Type} (body : α → ExecuteResult ⊕ SqliteRow → Flow α AppError) (id : Nat)
    (ahead : Nat → Nat) (patience : Nat) (w : World D S) (acc : α) (sql : String)
    (arguments : List SqliteValue) : Driven (World D S) α AppError :=
  driveAhead body databaseError ahead patience w acc
    (stream sqlx.engine id w (sqlx.statements sql arguments))

/-- The statements that a request brings to SQLite.  A request that is refused before
brings none. -/
def SqlRequest.compiled (request : SqlRequest) : List (Statement D S SqliteRow) :=
  match validateSql request.sql, bindQuery sqlx.toJson request.params with
  | .ok (), .ok arguments => sqlx.statements request.sql arguments
  | _, _ => []

theorem SqlRequest.compiled_eq {request : SqlRequest} {arguments : List SqliteValue}
    (hvalid : validateSql request.sql = .ok ())
    (hbind : bindQuery sqlx.toJson request.params = .ok arguments) :
    request.compiled sqlx = sqlx.statements request.sql arguments := by
  simp only [compiled, hvalid, hbind]

/-- `query`, on the reader connection that the pool gives. -/
def query (acquired : Except AppError Unit) (reader : Nat) (patience : Patience)
    (request : SqlRequest) (server : Server D S) : Server D S × Reply QueryResponse :=
  match validateSql request.sql with
  | .error error => (server, .failed error)
  | .ok () =>
    match acquired with
    | .error error => (server, .failed error)
    | .ok () =>
      match bindQuery sqlx.toJson request.params with
      | .error error => (server, .failed error)
      | .ok arguments =>
        let driven := runText sqlx (queryBody limit) (readerId reader) patience.ahead patience.waits
          (server.onReader reader) (.empty request.format) request.sql arguments
        (server.setReader reader driven.world, driven.outcome)

/-- `execute`. -/
def execute (acquired : Except AppError Unit) (patience : Patience) (request : SqlRequest)
    (server : Server D S) : Server D S × Reply ExecuteResult :=
  match validateSql request.sql with
  | .error error => (server, .failed error)
  | .ok () =>
    match acquired with
    | .error error => (server, .failed error)
    | .ok () =>
      match bindQuery sqlx.toJson request.params with
      | .error error => (server, .failed error)
      | .ok arguments =>
        let driven := runText sqlx executeBody writerId patience.ahead patience.waits
          server.onWriter ⟨0, 0⟩ request.sql arguments
        (server.setWriter driven.world, driven.outcome)

/-- One round of the loop over the statements of a batch. -/
def batchStatement (ahead : Nat → Nat) (patience : Nat) (w : World D S) (statement : SqlRequest) :
    Driven (World D S) BatchStatementResult AppError :=
  match validateSql statement.sql with
  | .error error => ⟨w, patience, .failed error⟩
  | .ok () =>
    match bindQuery sqlx.toJson statement.params with
    | .error error => ⟨w, patience, .failed error⟩
    | .ok arguments =>
      runText sqlx (batchBody limit) writerId ahead patience w ⟨0, 0, .empty statement.format⟩
        statement.sql arguments

/-- The loop over the statements of a batch. -/
def batchStatements (ahead : Nat → Nat) (patience : Nat) (w : World D S)
    (results : List BatchStatementResult) :
    List SqlRequest → Driven (World D S) (List BatchStatementResult) AppError
  | [] => ⟨w, patience, .done results⟩
  | statement :: rest =>
    let driven := batchStatement sqlx limit ahead patience w statement
    match driven.outcome with
    | .done result => batchStatements ahead driven.patience driven.world (results ++ [result]) rest
    | .failed error => ⟨driven.world, driven.patience, .failed error⟩
    | .cancelled => ⟨driven.world, driven.patience, .cancelled⟩

/-- The transaction of a batch is dropped without a commit. -/
def rollbackWriter (w : World D S) : World D S :=
  Driver.rollback SqliteRow sqlx.engine writerId w

/-- `transaction.commit()`.  A transaction whose commit fails is dropped. -/
def commitBatch (w : World D S) (results : List BatchStatementResult) :
    World D S × Reply BatchResponse :=
  match Driver.commit SqliteRow sqlx.engine writerId w with
  | (w, .ok ()) => (w, .done ⟨results⟩)
  | (w, .error error) => (rollbackWriter sqlx w, .failed (databaseError error))

/-- The end of a batch behind the loop over its statements.  A handler that is dropped while it
waits for the commit has sent it. -/
def closeBatch (driven : Driven (World D S) (List BatchStatementResult) AppError) :
    World D S × Reply BatchResponse :=
  match driven.outcome, driven.patience with
  | .done results, _ + 1 => commitBatch sqlx driven.world results
  | .done results, 0 => ((commitBatch sqlx driven.world results).1, .cancelled)
  | .cancelled, _ => (rollbackWriter sqlx driven.world, .cancelled)
  | .failed error, _ => (rollbackWriter sqlx driven.world, .failed error)

/-- `lease.writer().begin()`.  It waits for the connection and for the `BEGIN`, and `waits` are
left behind it.  A `BEGIN` whose handler has been dropped is rolled back. -/
def beginBatch (waits : Nat) (w : World D S) : World D S × Reply Nat :=
  match waits, Driver.begin SqliteRow sqlx.engine writerId w with
  | 0, _ => (w, .cancelled)
  | 1, (w, .ok ()) => (rollbackWriter sqlx w, .cancelled)
  | 1, (w, .error _) => (w, .cancelled)
  | _ + 2, (w, .error error) => (w, .failed (databaseError error))
  | waits + 2, (w, .ok ()) => (w, .done waits)

/-- What `batch` does from its `begin` on. -/
def runBatch (patience : Patience) (statements : List SqlRequest) (w : World D S) :
    World D S × Reply BatchResponse :=
  match beginBatch sqlx patience.waits w with
  | (w, .done waits) =>
    closeBatch sqlx (batchStatements sqlx limit patience.ahead waits w [] statements)
  | (w, .failed error) => (w, .failed error)
  | (w, .cancelled) => (w, .cancelled)

/-- `batch`. -/
def batch (acquired : Except AppError Unit) (patience : Patience) (request : BatchRequest)
    (server : Server D S) : Server D S × Reply BatchResponse :=
  if request.statements.isEmpty then
    (server, .failed (.invalidRequest "statements must not be empty"))
  else
    match acquired with
    | .error error => (server, .failed error)
    | .ok () =>
      let (w, reply) := runBatch sqlx limit patience request.statements server.onWriter
      (server.setWriter w, reply)

end Handlers

/-! ## A database of one table -/

/-- `INSERT INTO t VALUES (..)` on a table with one column. -/
def insertNumber (n : Int64) : Statement (List Int64) ExecuteResult SqliteRow :=
  .write fun _ _ numbers =>
    (⟨1, Int64.ofNat (numbers.length + 1)⟩, .ok ([], numbers ++ [n]))

/-- `DELETE FROM t`. -/
def deleteNumbers : Statement (List Int64) ExecuteResult SqliteRow :=
  .write fun _ session numbers => (⟨numbers.length, session.lastInsertRowid⟩, .ok ([], []))

/-- `SELECT n FROM t`. -/
def selectNumbers : Statement (List Int64) ExecuteResult SqliteRow :=
  .read fun _ session numbers => (session, numbers.map fun n => ⟨[("n", .integer n)]⟩, none)

/-- A few texts over the table `t (n INTEGER)`, whose contents are its numbers. -/
def numberStatements : String → List (Statement (List Int64) ExecuteResult SqliteRow)
  | "BEGIN" => [.begin false]
  | "COMMIT" => [.commit]
  | "PRAGMA query_only = OFF" => [.queryOnly false]
  | "INSERT INTO t VALUES (1)" => [insertNumber 1]
  | "INSERT INTO t VALUES (2)" => [insertNumber 2]
  | "BEGIN; INSERT INTO t VALUES (1); COMMIT" => [.begin false, insertNumber 1, .commit]
  | "SELECT n FROM t" => [selectNumbers]
  | "SELECT n FROM t; DELETE FROM t" => [selectNumbers, deleteNumbers]
  | _ => [.invalid "syntax error"]

def numbers : Sqlx (List Int64) ExecuteResult where
  statements sql _ := numberStatements sql
  engine := ⟨fun _ => none, id⟩
  toJson _ := ""

/-- A request without parameters. -/
def plainRequest (sql : String) : SqlRequest := ⟨sql, [], .objects⟩

end Tinkiva.Api
