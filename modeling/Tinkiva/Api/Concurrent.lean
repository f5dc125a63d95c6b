import Tinkiva.Api.Batch
import Tinkiva.Api.ReadOnly
import Tinkiva.Lib.Sqlite.Isolation

/-!
# Requests beside each other

The requests on one open database, at the same time.  A request waits for a connection, the
writer or a reader, has it to itself, and runs its text on it.  One step is one statement;
the rows that a statement yields concern nobody else and are taken with it.

`Stage` says how far a handler is.  `startStep`, `queryStep`, `executeStep`, `beginStep`,
`betweenStep` and `insideStep` are the handlers `query`, `execute` and `batch` of
`src/src/api.rs` in single steps.

* `Finishes` is what is left of a batch, and `beginStep_between`, `betweenStep_finishes` and
  `insideStep_finishes` say that a step does a part of it.
* `betweenStep_open` and `insideStep_open`: until the batch ends, its transaction is open and
  the file has the contents and the version that it had.

The choices of the environment are in the `Call`, as in `Tinkiva.Api.Service`: the answer of
`manager.acquire`, the reader, the wait at which the handler is dropped, and how far the
connection is ahead of it.  Where a handler leaves its text, its step runs the statements that
the connection is ahead.
-/

namespace Tinkiva.Api

open Sqlite LazyStream

variable {D S : Type}

/-- What a request is answered with. -/
inductive Answer where
  | query (reply : Reply QueryResponse)
  | execute (reply : Reply ExecuteResult)
  | batch (reply : Reply BatchResponse)

/-- How far a handler is.  It waits, or it is in the loop over its text (`querying`,
`executing`, `inside`), before the `begin` of a batch, between the statements of the batch, or
at its end. -/
inductive Stage (D S : Type) where
  | waiting
  | querying (reader patience : Nat) (response : QueryResponse)
      (text : List (Statement D S SqliteRow))
  | executing (patience : Nat) (result : ExecuteResult) (text : List (Statement D S SqliteRow))
  | beginning (patience : Nat) (statements : List SqlRequest)
  | between (patience : Nat) (results : List BatchStatementResult) (rest : List SqlRequest)
  | inside (patience : Nat) (results : List BatchStatementResult) (result : BatchStatementResult)
      (text : List (Statement D S SqliteRow)) (rest : List SqlRequest)
  | answered (answer : Answer)

/-- The connection that a handler has to itself. -/
def Stage.holds : Stage D S → Option Nat
  | .querying reader _ _ _ => some (readerId reader)
  | .executing _ _ _ | .beginning _ _ | .between _ _ _ | .inside _ _ _ _ _ => some writerId
  | .waiting | .answered _ => none

/-- The transaction of a batch is open. -/
def Stage.inBatch : Stage D S → Bool
  | .between _ _ _ | .inside _ _ _ _ _ => true
  | _ => false

/-- The answer of a handler, if it has run its text. -/
def Stage.conclusion : Stage D S → Option Answer
  | .querying _ 0 _ [] => some (.query .cancelled)
  | .querying _ (_ + 1) response [] => some (.query (.done response))
  | .executing 0 _ [] => some (.execute .cancelled)
  | .executing (_ + 1) result [] => some (.execute (.done result))
  | .answered answer => some answer
  | _ => none

/-- How far the connection is ahead of the handler when it leaves a text. -/
def Call.ahead : Call → Nat → Nat
  | .query _ _ patience _ | .execute _ patience _ | .batch _ patience _ => patience.ahead

/-- A request and how far its handler is. -/
structure Flight (D S : Type) where
  call : Call
  stage : Stage D S

/-- The database and the requests on it. -/
structure Traffic (D S : Type) where
  server : Server D S
  flights : List (Flight D S)

inductive Action where
  | send (call : Call)
  | step (flight : Nat)

section

variable (sqlx : Sqlx D S) (limit : Nat)

/-- The server after a request that is served alone, and its answer. -/
def Server.answer (server : Server D S) : Call → Server D S × Answer
  | .query acquired reader patience request =>
    let (server, reply) := Api.query sqlx limit acquired reader patience request server
    (server, .query reply)
  | .execute acquired patience request =>
    let (server, reply) := Api.execute sqlx acquired patience request server
    (server, .execute reply)
  | .batch acquired patience request =>
    let (server, reply) := Api.batch sqlx limit acquired patience request server
    (server, .batch reply)

/-! ## The handlers in steps -/

/-- What a handler does before it has a connection. -/
def startStep : Call → Stage D S
  | .query acquired reader patience request =>
    match validateSql request.sql with
    | .error error => .answered (.query (.failed error))
    | .ok () =>
      match acquired with
      | .error error => .answered (.query (.failed error))
      | .ok () =>
        match bindQuery sqlx.toJson request.params with
        | .error error => .answered (.query (.failed error))
        | .ok arguments =>
          .querying reader patience.waits (.empty request.format)
            (sqlx.statements request.sql arguments)
  | .execute acquired patience request =>
    match validateSql request.sql with
    | .error error => .answered (.execute (.failed error))
    | .ok () =>
      match acquired with
      | .error error => .answered (.execute (.failed error))
      | .ok () =>
        match bindQuery sqlx.toJson request.params with
        | .error error => .answered (.execute (.failed error))
        | .ok arguments =>
          .executing patience.waits ⟨0, 0⟩ (sqlx.statements request.sql arguments)
  | .batch acquired patience request =>
    if request.statements.isEmpty then
      .answered (.batch (.failed (.invalidRequest "statements must not be empty")))
    else
      match acquired with
      | .error error => .answered (.batch (.failed error))
      | .ok () => .beginning patience.waits request.statements

/-- A step of `query` in the loop over its text. -/
def queryStep (server : Server D S) (ahead : Nat → Nat) (reader patience : Nat)
    (response : QueryResponse) (text : List (Statement D S SqliteRow)) :
    Server D S × Stage D S :=
  let w := server.onReader reader
  match patience, text with
  | 0, text =>
    (server.setReader reader (lead w (ahead 0) (stream sqlx.engine (readerId reader) w text)),
      .answered (.query .cancelled))
  | _ + 1, [] => (server, .answered (.query (.done response)))
  | patience + 1, s :: text =>
    let ran := exec sqlx.engine (readerId reader) w s
    match feed (queryBody limit) databaseError (patience + 1) response (ran.items sqlx.engine) with
    | .more patience response =>
      (server.setReader reader ran.world, .querying reader patience response text)
    | .ended patience left outcome =>
      (server.setReader reader (lead ran.world (ahead patience - left)
        (ran.following sqlx.engine (readerId reader) text)), .answered (.query outcome))

/-- A step of `execute` in the loop over its text. -/
def executeStep (w : World D S) (ahead : Nat → Nat) (patience : Nat) (result : ExecuteResult)
    (text : List (Statement D S SqliteRow)) : World D S × Stage D S :=
  match patience, text with
  | 0, text =>
    (lead w (ahead 0) (stream sqlx.engine writerId w text), .answered (.execute .cancelled))
  | _ + 1, [] => (w, .answered (.execute (.done result)))
  | patience + 1, s :: text =>
    let ran := exec sqlx.engine writerId w s
    match feed executeBody databaseError (patience + 1) result (ran.items sqlx.engine) with
    | .more patience result => (ran.world, .executing patience result text)
    | .ended patience left outcome =>
      (lead ran.world (ahead patience - left) (ran.following sqlx.engine writerId text),
        .answered (.execute outcome))

/-- The `begin` of a batch. -/
def beginStep (w : World D S) (patience : Nat) (statements : List SqlRequest) :
    World D S × Stage D S :=
  match beginBatch sqlx patience w with
  | (w, .done patience) => (w, .between patience [] statements)
  | (w, .failed error) => (w, .answered (.batch (.failed error)))
  | (w, .cancelled) => (w, .answered (.batch .cancelled))

/-- A batch that ends without a commit. -/
def failBatch (w : World D S) (reply : Reply BatchResponse) : World D S × Stage D S :=
  (rollbackWriter sqlx w, .answered (.batch reply))

/-- A step of `batch` between two of its statements. -/
def betweenStep (w : World D S) (patience : Nat) (results : List BatchStatementResult) :
    List SqlRequest → World D S × Stage D S
  | [] =>
    let (w, reply) := commitBatch sqlx w results
    match patience with
    | 0 => (w, .answered (.batch .cancelled))
    | _ + 1 => (w, .answered (.batch reply))
  | statement :: rest =>
    match validateSql statement.sql with
    | .error error => failBatch sqlx w (.failed error)
    | .ok () =>
      match bindQuery sqlx.toJson statement.params with
      | .error error => failBatch sqlx w (.failed error)
      | .ok arguments =>
        (w, .inside patience results ⟨0, 0, .empty statement.format⟩
          (sqlx.statements statement.sql arguments) rest)

/-- A step of `batch` in the loop over the text of a statement. -/
def insideStep (w : World D S) (ahead : Nat → Nat) (patience : Nat)
    (results : List BatchStatementResult) (result : BatchStatementResult)
    (text : List (Statement D S SqliteRow)) (rest : List SqlRequest) : World D S × Stage D S :=
  match patience, text with
  | 0, text => failBatch sqlx (lead w (ahead 0) (stream sqlx.engine writerId w text)) .cancelled
  | patience + 1, [] => (w, .between patience (results ++ [result]) rest)
  | patience + 1, s :: text =>
    let ran := exec sqlx.engine writerId w s
    match feed (batchBody limit) databaseError (patience + 1) result (ran.items sqlx.engine) with
    | .more patience result => (ran.world, .inside patience results result text rest)
    | .ended patience left outcome =>
      let w := lead ran.world (ahead patience - left) (ran.following sqlx.engine writerId text)
      match outcome with
      | .done result => (w, .between patience (results ++ [result]) rest)
      | .failed error => failBatch sqlx w (.failed error)
      | .cancelled => failBatch sqlx w .cancelled

/-- A step of a handler.  It waits until nobody has the connection that it needs. -/
def Traffic.move (c : Traffic D S) (flight : Flight D S) : Option (Server D S × Stage D S) :=
  match flight.stage with
  | .waiting =>
    let stage := startStep sqlx flight.call
    if stage.holds.isSome ∧ ∃ other ∈ c.flights, other.stage.holds = stage.holds then none
    else some (c.server, stage)
  | .querying reader patience response text =>
    some (queryStep sqlx limit c.server flight.call.ahead reader patience response text)
  | .executing patience result text =>
    let (w, stage) := executeStep sqlx c.server.onWriter flight.call.ahead patience result text
    some (c.server.setWriter w, stage)
  | .beginning patience statements =>
    let (w, stage) := beginStep sqlx c.server.onWriter patience statements
    some (c.server.setWriter w, stage)
  | .between patience results rest =>
    let (w, stage) := betweenStep sqlx c.server.onWriter patience results rest
    some (c.server.setWriter w, stage)
  | .inside patience results result text rest =>
    let (w, stage) :=
      insideStep sqlx limit c.server.onWriter flight.call.ahead patience results result text rest
    some (c.server.setWriter w, stage)
  | .answered _ => none

/-- One step of the requests. -/
def Traffic.step (c : Traffic D S) : Action → Option (Traffic D S)
  | .send call => some { c with flights := c.flights ++ [⟨call, .waiting⟩] }
  | .step i =>
    match c.flights[i]? with
    | none => none
    | some flight =>
      (c.move sqlx limit flight).map fun (server, stage) =>
        ⟨server, c.flights.set i { flight with stage := stage }⟩

/-- A `query` never has the writer. -/
theorem queryStep_holds (server : Server D S) (ahead : Nat → Nat) (reader patience : Nat)
    (response : QueryResponse) (text : List (Statement D S SqliteRow)) :
    (queryStep sqlx limit server ahead reader patience response text).2.holds ≠
      some writerId := by
  unfold queryStep
  split
  · simp [Stage.holds]
  · simp [Stage.holds]
  · simp only
    split <;> simp [Stage.holds, readerId, writerId]

/-! ## What is left of a batch -/

/-- The loop over the statements, behind the text of one of them. -/
def nextStatements (ahead : Nat → Nat) (results : List BatchStatementResult)
    (rest : List SqlRequest) (driven : Driven (World D S) BatchStatementResult AppError) :
    Driven (World D S) (List BatchStatementResult) AppError :=
  match driven.outcome with
  | .done result =>
    batchStatements sqlx limit ahead driven.patience driven.world (results ++ [result]) rest
  | .failed error => ⟨driven.world, driven.patience, .failed error⟩
  | .cancelled => ⟨driven.world, driven.patience, .cancelled⟩

/-- A batch that goes on alone from a stage ends in a world and with a reply. -/
inductive Finishes (ahead : Nat → Nat) :
    World D S → Stage D S → World D S × Reply BatchResponse → Prop
  | between (w : World D S) (patience : Nat) (results : List BatchStatementResult)
      (rest : List SqlRequest) :
    Finishes ahead w (.between patience results rest)
      (closeBatch sqlx (batchStatements sqlx limit ahead patience w results rest))
  | inside (w : World D S) (patience : Nat) (results : List BatchStatementResult)
      (result : BatchStatementResult) (text : List (Statement D S SqliteRow))
      (rest : List SqlRequest) :
    Finishes ahead w (.inside patience results result text rest)
      (closeBatch sqlx (nextStatements sqlx limit ahead results rest
        (driveAhead (batchBody limit) databaseError ahead patience w result
          (stream sqlx.engine writerId w text))))
  | answered (w : World D S) (reply : Reply BatchResponse) :
    Finishes ahead w (.answered (.batch reply)) (w, reply)

variable {sqlx limit} {w w' : World D S} {stage' : Stage D S} {ahead : Nat → Nat}
  {ending : World D S × Reply BatchResponse}

variable (sqlx) in
/-- What every statement on the writer keeps, and the count of `sqlx` has no part in. -/
structure WriterInvariant (I : World D S → Prop) : Prop where
  exec : ∀ (w : World D S) (s : Statement D S SqliteRow), I w →
    I (exec sqlx.engine writerId w s).world
  depth : ∀ (w : World D S) depth, I w → I (w.setDepth depth)

namespace WriterInvariant

variable {I : World D S → Prop} (hI : WriterInvariant sqlx I)
include hI

theorem rollback (hw : I w) : I (rollbackWriter sqlx w) :=
  Driver.finish_keeps sqlx.engine writerId rollbackStatement hI.exec hI.depth hw

theorem commit (hw : I w) (results : List BatchStatementResult) :
    I (commitBatch sqlx w results).1 := by
  have hfinish := Driver.finish_keeps sqlx.engine writerId commitStatement hI.exec hI.depth hw
  unfold commitBatch Driver.commit
  generalize Driver.finish SqliteRow sqlx.engine writerId w commitStatement = committed
    at hfinish ⊢
  obtain ⟨w, error | _⟩ := committed
  · exact hI.rollback hfinish
  · exact hfinish

theorem begin (hw : I w) : I (Driver.begin SqliteRow sqlx.engine writerId w).1 := by
  simp only [Driver.begin]
  split
  · exact hI.depth _ _ (hI.exec _ _ hw)
  · exact hI.exec _ _ hw

theorem executeStep (hw : I w) (ahead : Nat → Nat) (patience : Nat) (result : ExecuteResult)
    (text : List (Statement D S SqliteRow)) :
    I (executeStep sqlx w ahead patience result text).1 := by
  unfold Api.executeStep
  split
  · exact lead_keeps _ hw fun w hw s _ => hI.exec w s hw
  · exact hw
  · simp only
    split
    · exact hI.exec _ _ hw
    · exact Result.following_keeps sqlx.engine writerId _ (hI.exec _ _ hw)
        fun w hw s _ => hI.exec w s hw

theorem beginStep (hw : I w) (patience : Nat) (statements : List SqlRequest) :
    I (beginStep sqlx w patience statements).1 := by
  have hbegin := hI.begin hw
  unfold Api.beginStep beginBatch
  generalize Driver.begin SqliteRow sqlx.engine writerId w = began at hbegin ⊢
  obtain ⟨w', error | _⟩ := began
  · match patience with
    | 0 => exact hw
    | 1 | _ + 2 => exact hbegin
  · match patience with
    | 0 => exact hw
    | 1 => exact hI.rollback hbegin
    | _ + 2 => exact hbegin

theorem betweenStep (hw : I w) (patience : Nat) (results : List BatchStatementResult)
    (rest : List SqlRequest) : I (betweenStep sqlx w patience results rest).1 := by
  unfold Api.betweenStep
  split
  · have hcommit := hI.commit hw results
    cases patience <;> exact hcommit
  · split
    · exact hI.rollback hw
    · split
      · exact hI.rollback hw
      · exact hw

theorem insideStep (hw : I w) (ahead : Nat → Nat) (patience : Nat)
    (results : List BatchStatementResult) (result : BatchStatementResult)
    (text : List (Statement D S SqliteRow)) (rest : List SqlRequest) :
    I (insideStep sqlx limit w ahead patience results result text rest).1 := by
  unfold Api.insideStep
  split
  · exact hI.rollback (lead_keeps _ hw fun w hw s _ => hI.exec w s hw)
  · exact hw
  · simp only
    split
    · exact hI.exec _ _ hw
    · have hleft (s : Statement D S SqliteRow) (n : Nat) (text : List (Statement D S SqliteRow)) :
          I (lead (Sqlite.exec sqlx.engine writerId w s).world n
            ((Sqlite.exec sqlx.engine writerId w s).following sqlx.engine writerId text)) :=
        Result.following_keeps sqlx.engine writerId n (hI.exec w s hw)
          fun w hw s _ => hI.exec w s hw
      split
      · exact hleft _ _ _
      · exact hI.rollback (hleft _ _ _)
      · exact hI.rollback (hleft _ _ _)

end WriterInvariant

/-- A step between two statements does a part of what is left. -/
theorem betweenStep_finishes {patience : Nat} {results : List BatchStatementResult}
    {rest : List SqlRequest}
    (h : Finishes sqlx limit ahead w (.between patience results rest) ending)
    (hstep : betweenStep sqlx w patience results rest = (w', stage')) :
    Finishes sqlx limit ahead w' stage' ending := by
  cases h with
  | between =>
    cases rest with
    | nil =>
      cases patience with
      | zero =>
        obtain ⟨rfl, rfl⟩ := Prod.mk.inj hstep
        exact .answered _ _
      | succ patience =>
        obtain ⟨rfl, rfl⟩ := Prod.mk.inj hstep
        exact .answered _ _
    | cons statement rest =>
      simp only [betweenStep] at hstep
      simp only [batchStatements, batchStatement]
      cases hvalid : validateSql statement.sql with
      | error error =>
        simp only [hvalid] at hstep
        obtain ⟨rfl, rfl⟩ := Prod.mk.inj hstep
        exact .answered _ _
      | ok _ =>
        simp only [hvalid] at hstep ⊢
        cases hbind : bindQuery sqlx.toJson statement.params with
        | error error =>
          simp only [hbind] at hstep
          obtain ⟨rfl, rfl⟩ := Prod.mk.inj hstep
          exact .answered _ _
        | ok arguments =>
          simp only [hbind] at hstep
          obtain ⟨rfl, rfl⟩ := Prod.mk.inj hstep
          exact .inside _ _ _ _ _ _

/-- A step in the text of a statement does a part of what is left. -/
theorem insideStep_finishes {patience : Nat} {results : List BatchStatementResult}
    {result : BatchStatementResult} {text : List (Statement D S SqliteRow)}
    {rest : List SqlRequest}
    (h : Finishes sqlx limit ahead w (.inside patience results result text rest) ending)
    (hstep : insideStep sqlx limit w ahead patience results result text rest = (w', stage')) :
    Finishes sqlx limit ahead w' stage' ending := by
  cases h with
  | inside =>
    cases patience with
    | zero =>
      obtain ⟨rfl, rfl⟩ := Prod.mk.inj hstep
      rw [driveAhead_zero]
      exact .answered _ _
    | succ patience =>
      cases text with
      | nil =>
        obtain ⟨rfl, rfl⟩ := Prod.mk.inj hstep
        rw [stream, driveAhead_nil]
        exact .between _ _ _ _
      | cons s text =>
        rw [drive_exec]
        simp only [insideStep] at hstep
        split at hstep
        · rename_i hfeed
          obtain ⟨rfl, rfl⟩ := Prod.mk.inj hstep
          rw [hfeed, following_of_more sqlx.engine writerId hfeed]
          exact .inside _ _ _ _ _ _
        · rename_i outcome hfeed
          rw [hfeed]
          cases outcome with
          | done result =>
            obtain ⟨rfl, rfl⟩ := Prod.mk.inj hstep
            exact .between _ _ _ _
          | failed error =>
            obtain ⟨rfl, rfl⟩ := Prod.mk.inj hstep
            exact .answered _ _
          | cancelled =>
            obtain ⟨rfl, rfl⟩ := Prod.mk.inj hstep
            exact .answered _ _

variable (limit) in
/-- A batch that has begun is as the handler has it behind its `begin`. -/
theorem beginStep_between (patience : Patience) {statements : List SqlRequest}
    (hdepth : w.conn.depth = 0)
    (hstep : beginStep sqlx w patience.waits statements = (w', stage')) :
    (∃ reply, stage' = .answered (.batch reply) ∧
      runBatch sqlx limit patience statements w = (w', reply)) ∨
    ∃ waits, stage' = .between waits [] statements ∧ w'.Begun ∧ w'.file = w.file ∧
      Finishes sqlx limit patience.ahead w' stage'
        (runBatch sqlx limit patience statements w) := by
  have hcases := (beginBatch_cases sqlx patience.waits w).2
  have hfirst := Driver.begin_begun SqliteRow sqlx.engine writerId hdepth
  simp only [beginStep, runBatch] at hstep ⊢
  generalize beginBatch sqlx patience.waits w = began at hcases hstep ⊢
  obtain ⟨w₁, waits | error | _⟩ := began
  · obtain ⟨hok, hbegun⟩ := hcases waits rfl
    obtain ⟨rfl, rfl⟩ := Prod.mk.inj hstep
    obtain rfl : w₁ = _ := hbegun.trans (hfirst hok).2
    exact .inr ⟨waits, rfl, ⟨_, rfl, rfl⟩, rfl, .between _ _ _ _⟩
  · obtain ⟨rfl, rfl⟩ := Prod.mk.inj hstep
    exact .inl ⟨_, rfl, rfl⟩
  · obtain ⟨rfl, rfl⟩ := Prod.mk.inj hstep
    exact .inl ⟨_, rfl, rfl⟩

/-- No statement that is left can end the transaction. -/
def Stage.Keeps (sqlx : Sqlx D S) : Stage D S → Prop
  | .between _ _ rest => ∀ statement ∈ rest, statement.KeepsTransaction sqlx
  | .inside _ _ _ text rest => (∀ s ∈ text, s.KeepsTransaction) ∧
    ∀ statement ∈ rest, statement.KeepsTransaction sqlx
  | _ => True

/-- The transaction of a batch is open, and the file is as the batch has found it. -/
structure StillOpen (file : File D) (w : World D S) : Prop where
  begun : w.Begun
  alike : w.file.Alike file

theorem StillOpen.exec {file : File D} (hw : StillOpen file w) {s : Statement D S SqliteRow}
    (hs : s.KeepsTransaction) : StillOpen file (exec sqlx.engine writerId w s).world where
  begun := (exec_begun sqlx.engine writerId hw.begun hs.ends).2 (.inr hs.aborts)
  alike := (exec_begun_alike sqlx.engine writerId hw.begun hs.ends).trans hw.alike

/-- Between two statements the transaction stays open, or the batch ends. -/
theorem betweenStep_open {file : File D} {patience : Nat} {results : List BatchStatementResult}
    {rest : List SqlRequest} (hw : StillOpen file w)
    (hkeeps : (Stage.between patience results rest : Stage D S).Keeps sqlx)
    (hstep : betweenStep sqlx w patience results rest = (w', stage')) :
    (∃ reply, stage' = .answered (.batch reply)) ∨
      stage'.inBatch = true ∧ stage'.Keeps sqlx ∧ StillOpen file w' := by
  cases rest with
  | nil =>
    cases patience with
    | zero =>
      obtain ⟨rfl, rfl⟩ := Prod.mk.inj hstep
      exact .inl ⟨_, rfl⟩
    | succ patience =>
      obtain ⟨rfl, rfl⟩ := Prod.mk.inj hstep
      exact .inl ⟨_, rfl⟩
  | cons statement rest =>
    simp only [betweenStep] at hstep
    split at hstep
    · obtain ⟨rfl, rfl⟩ := Prod.mk.inj hstep
      exact .inl ⟨_, rfl⟩
    · rename_i hvalid
      split at hstep
      · obtain ⟨rfl, rfl⟩ := Prod.mk.inj hstep
        exact .inl ⟨_, rfl⟩
      · rename_i arguments hbind
        obtain ⟨rfl, rfl⟩ := Prod.mk.inj hstep
        have htext := hkeeps statement List.mem_cons_self
        rw [SqlRequest.KeepsTransaction, SqlRequest.compiled_eq sqlx hvalid hbind] at htext
        exact .inr ⟨rfl, ⟨htext, fun statement h => hkeeps statement (.tail _ h)⟩, hw⟩

/-- In the text of a statement the transaction stays open, or the batch ends. -/
theorem insideStep_open {file : File D} {patience : Nat} {results : List BatchStatementResult}
    {result : BatchStatementResult} {text : List (Statement D S SqliteRow)}
    {rest : List SqlRequest} (hw : StillOpen file w)
    (hkeeps : (Stage.inside patience results result text rest).Keeps sqlx)
    (hstep : insideStep sqlx limit w ahead patience results result text rest = (w', stage')) :
    (∃ reply, stage' = .answered (.batch reply)) ∨
      stage'.inBatch = true ∧ stage'.Keeps sqlx ∧ StillOpen file w' := by
  cases patience with
  | zero =>
    obtain ⟨rfl, rfl⟩ := Prod.mk.inj hstep
    exact .inl ⟨_, rfl⟩
  | succ patience =>
    cases text with
    | nil =>
      obtain ⟨rfl, rfl⟩ := Prod.mk.inj hstep
      exact .inr ⟨rfl, hkeeps.2, hw⟩
    | cons s text =>
      obtain ⟨htext, hrest⟩ := hkeeps
      have hran : StillOpen file (Sqlite.exec sqlx.engine writerId w s).world :=
        hw.exec (htext s List.mem_cons_self)
      simp only [insideStep] at hstep
      split at hstep
      · obtain ⟨rfl, rfl⟩ := Prod.mk.inj hstep
        exact .inr ⟨rfl, ⟨fun s h => htext s (.tail _ h), hrest⟩, hran⟩
      · rename_i patience left outcome _
        have hleft : StillOpen file (lead (Sqlite.exec sqlx.engine writerId w s).world
            (ahead patience - left)
            ((Sqlite.exec sqlx.engine writerId w s).following sqlx.engine writerId text)) :=
          Result.following_keeps sqlx.engine writerId _ hran
            fun w hw s h => hw.exec (htext s (.tail _ h))
        cases outcome with
        | done result =>
          obtain ⟨rfl, rfl⟩ := Prod.mk.inj hstep
          exact .inr ⟨rfl, hrest, hleft⟩
        | failed error =>
          obtain ⟨rfl, rfl⟩ := Prod.mk.inj hstep
          exact .inl ⟨_, rfl⟩
        | cancelled =>
          obtain ⟨rfl, rfl⟩ := Prod.mk.inj hstep
          exact .inl ⟨_, rfl⟩

end

end Tinkiva.Api
