import Mathlib.Data.List.Induction
import Tinkiva.Api.Concurrent

/-!
# Requests are answered as if one after another

Any number of requests is at work on one database (`Tinkiva.Api.Concurrent`), and each is
answered as `Tinkiva.Api.Service` answers it when the requests come one after the other
(`answers_serial`).

The order is the one in which the requests take effect.  A `query` and an `execute` take
effect with their only statement, and a batch takes effect when it ends: a reader that runs
while the batch is at its statements does not see them, and is served before it.

* `drive_beside`: a `query` is answered alike by two servers whose files differ in the write
  lock.
* `Flight.Open` is the invariant of a batch whose transaction is open: what is left of it is
  what is left of the batch that runs alone.
* `Serial` is the invariant of all requests.  A step of a handler keeps the order
  (`Serial.keep`), or adds the handler to it (`Serial.conclude`).

A request is `Plain` if it is atomic by itself.  Between two statements of a text others may
run, a text that ends the transaction of its batch shows a part of the batch, and a reader
that writes is a second writer.  A write that rolls the transaction back when it fails is
among the texts that end it: behind the row limit the handler does not see the error, and the
rest of the batch is run outside of a transaction.
-/

namespace Tinkiva.Api

open Sqlite LazyStream

variable {D S : Type}

section

variable (sqlx : Sqlx D S) (limit : Nat)

/-! ## The requests that the law is about -/

/-- The texts of `query` and of `execute` are one statement, and do not turn `query_only` off
for a reader.  The texts of a batch do not end its transaction, also not by a write that
fails. -/
def Call.Plain : Call → Prop
  | .query _ _ _ request => (request.compiled sqlx).length ≤ 1 ∧
    ∀ s ∈ request.compiled sqlx, s.liftsQueryOnly = false
  | .execute _ _ request => (request.compiled sqlx).length ≤ 1
  | .batch _ _ request => ∀ statement ∈ request.statements, statement.KeepsTransaction sqlx

/-- A request that has not begun its text, by the stage that it is at: what it does if it is
served alone. -/
def Stage.Ready (call : Call) : Stage D S → Prop
  | .waiting => call.Plain sqlx
  | .querying reader patience response text => text.length ≤ 1 ∧
    (∀ s ∈ text, s.liftsQueryOnly = false) ∧
    ∀ server : Server D S, server.answer sqlx limit call =
      let driven := driveAhead (queryBody limit) databaseError call.ahead patience
        (server.onReader reader) response
        (stream sqlx.engine (readerId reader) (server.onReader reader) text)
      (server.setReader reader driven.world, .query driven.outcome)
  | .executing patience result text => text.length ≤ 1 ∧
    ∀ server : Server D S, server.answer sqlx limit call =
      let driven := driveAhead executeBody databaseError call.ahead patience server.onWriter result
        (stream sqlx.engine writerId server.onWriter text)
      (server.setWriter driven.world, .execute driven.outcome)
  | .beginning waits statements =>
    (∀ statement ∈ statements, statement.KeepsTransaction sqlx) ∧
    ∀ server : Server D S, server.answer sqlx limit call =
      let ran := runBatch sqlx limit ⟨waits, call.ahead⟩ statements server.onWriter
      (server.setWriter ran.1, .batch ran.2)
  | .answered answer => ∀ server : Server D S, server.answer sqlx limit call = (server, answer)
  | .between _ _ _ | .inside _ _ _ _ _ => False

variable {sqlx limit}

variable (limit) in
/-- What a handler does before it has a connection concerns nobody. -/
theorem startStep_ready {call : Call} (h : call.Plain sqlx) :
    (startStep sqlx call : Stage D S).Ready sqlx limit call := by
  cases call with
  | query acquired reader patience request =>
    simp only [Call.Plain] at h
    simp only [startStep]
    split
    · rename_i hvalid
      intro server
      simp only [Server.answer, query, hvalid]
    · rename_i hvalid
      cases acquired with
      | error error =>
        intro server
        simp only [Server.answer, query, hvalid]
      | ok _ =>
        simp only
        split
        · rename_i hbind
          intro server
          simp only [Server.answer, query, hvalid, hbind]
        · rename_i arguments hbind
          rw [SqlRequest.compiled_eq sqlx hvalid hbind] at h
          refine ⟨h.1, h.2, fun server => ?_⟩
          simp only [Server.answer, query, hvalid, hbind, runText, Call.ahead]
  | execute acquired patience request =>
    simp only [Call.Plain] at h
    simp only [startStep]
    split
    · rename_i hvalid
      intro server
      simp only [Server.answer, execute, hvalid]
    · rename_i hvalid
      cases acquired with
      | error error =>
        intro server
        simp only [Server.answer, execute, hvalid]
      | ok _ =>
        simp only
        split
        · rename_i hbind
          intro server
          simp only [Server.answer, execute, hvalid, hbind]
        · rename_i arguments hbind
          rw [SqlRequest.compiled_eq sqlx hvalid hbind] at h
          refine ⟨h, fun server => ?_⟩
          simp only [Server.answer, execute, hvalid, hbind, runText, Call.ahead]
  | batch acquired patience request =>
    simp only [startStep]
    split
    · rename_i hempty
      intro server
      simp only [Server.answer, batch, hempty, if_true]
    · rename_i hempty
      cases acquired with
      | error error =>
        intro server
        simp only [Server.answer, batch, if_neg hempty]
      | ok _ =>
        refine ⟨h, fun server => ?_⟩
        simp only [Server.answer, batch, if_neg hempty, Call.ahead]

/-! ## One statement at once -/

theorem setReader_onReader (server : Server D S) (reader : Nat) :
    server.setReader reader (server.onReader reader) = server := by
  simp [Server.setReader, Server.onReader]

theorem setWriter_onWriter (server : Server D S) : server.setWriter server.onWriter = server := rfl

theorem eq_singleton {α : Type} {text : List α} (hone : text.length ≤ 1) (htext : text ≠ []) :
    ∃ s, text = [s] :=
  List.length_eq_one_iff.mp (Nat.le_antisymm hone (List.length_pos_iff.mpr htext))

/-- The step of `query` for a text of one statement runs the whole text. -/
theorem queryStep_alone {server server' : Server D S} {ahead : Nat → Nat}
    {reader patience : Nat} {response : QueryResponse} {text : List (Statement D S SqliteRow)}
    {stage' : Stage D S}
    (hone : text.length ≤ 1) (htext : text ≠ [])
    (hstep : queryStep sqlx limit server ahead reader patience response text =
      (server', stage')) :
    let driven := driveAhead (queryBody limit) databaseError ahead patience
      (server.onReader reader) response
      (stream sqlx.engine (readerId reader) (server.onReader reader) text)
    server' = server.setReader reader driven.world ∧
      stage'.conclusion = some (.query driven.outcome) := by
  obtain ⟨s, rfl⟩ := eq_singleton hone htext
  cases patience with
  | zero =>
    obtain ⟨rfl, rfl⟩ := Prod.mk.inj hstep
    rw [driveAhead_zero]
    exact ⟨rfl, rfl⟩
  | succ patience =>
    simp only [queryStep] at hstep
    rw [drive_exec]
    split at hstep
    · rename_i patience _ hfeed
      obtain ⟨rfl, rfl⟩ := Prod.mk.inj hstep
      rw [hfeed, following_of_more _ _ hfeed, stream, Fed.resume]
      cases patience with
      | zero =>
        rw [driveAhead_zero, lead_nil]
        exact ⟨rfl, rfl⟩
      | succ patience =>
        rw [driveAhead_nil]
        exact ⟨rfl, rfl⟩
    · rename_i hfeed
      obtain ⟨rfl, rfl⟩ := Prod.mk.inj hstep
      rw [hfeed]
      exact ⟨rfl, rfl⟩

/-- The step of `execute` for a text of one statement runs the whole text. -/
theorem executeStep_alone {w w' : World D S} {ahead : Nat → Nat} {patience : Nat}
    {result : ExecuteResult} {text : List (Statement D S SqliteRow)} {stage' : Stage D S}
    (hone : text.length ≤ 1) (htext : text ≠ [])
    (hstep : executeStep sqlx w ahead patience result text = (w', stage')) :
    let driven := driveAhead executeBody databaseError ahead patience w result
      (stream sqlx.engine writerId w text)
    w' = driven.world ∧ stage'.conclusion = some (.execute driven.outcome) := by
  obtain ⟨s, rfl⟩ := eq_singleton hone htext
  cases patience with
  | zero =>
    obtain ⟨rfl, rfl⟩ := Prod.mk.inj hstep
    rw [driveAhead_zero]
    exact ⟨rfl, rfl⟩
  | succ patience =>
    simp only [executeStep] at hstep
    rw [drive_exec]
    split at hstep
    · rename_i patience _ hfeed
      obtain ⟨rfl, rfl⟩ := Prod.mk.inj hstep
      rw [hfeed, following_of_more _ _ hfeed, stream, Fed.resume]
      cases patience with
      | zero =>
        rw [driveAhead_zero, lead_nil]
        exact ⟨rfl, rfl⟩
      | succ patience =>
        rw [driveAhead_nil]
        exact ⟨rfl, rfl⟩
    · rename_i hfeed
      obtain ⟨rfl, rfl⟩ := Prod.mk.inj hstep
      rw [hfeed]
      exact ⟨rfl, rfl⟩

/-! ## The server that has served the requests -/

variable (sqlx limit)

/-- The server after requests that are served one after the other. -/
def served (contents : D) (session : S) (calls : List Call) : Server D S :=
  calls.foldl (Server.serve sqlx limit) (.opened contents session)

theorem serve_eq_answer (server : Server D S) (call : Call) :
    server.serve sqlx limit call = (server.answer sqlx limit call).1 := by
  cases call <;> rfl

theorem served_append (contents : D) (session : S) (calls : List Call) (call : Call) :
    served sqlx limit contents session (calls ++ [call]) =
      ((served sqlx limit contents session calls).answer sqlx limit call).1 := by
  rw [served, List.foldl_append, ← serve_eq_answer]
  rfl

/-- Behind a plain request `sqlx` takes the writer to be in no transaction. -/
theorem answer_depth {server : Server D S} {call : Call} (hcall : call.Plain sqlx)
    (hdepth : server.writer.depth = 0) :
    (server.answer sqlx limit call).1.writer.depth = 0 := by
  rw [← serve_eq_answer]
  cases call with
  | query acquired reader patience request =>
    rw [Server.serve, (query_run sqlx limit acquired reader patience request server).1]
    exact hdepth
  | execute acquired patience request =>
    rw [Server.serve, (execute_run sqlx acquired patience request server).1]
    let I : World D S → Prop := fun w => w.conn.depth = 0
    exact driveAhead_world (I := I) patience.waits _ hdepth (stream_world (I := I) hdepth
      fun w hw s _ => (exec_depth sqlx.engine writerId s).trans hw)
  | batch acquired patience request =>
    simp only [Server.serve, batch]
    split
    · exact hdepth
    · split
      · exact hdepth
      · exact (runBatch_released sqlx limit patience (w := server.onWriter) hdepth hcall).depth

theorem served_depth (contents : D) (session : S) {calls : List Call}
    (hcalls : ∀ call ∈ calls, call.Plain sqlx) :
    (served sqlx limit contents session calls).writer.depth = 0 := by
  induction calls using List.reverseRecOn with
  | nil => rfl
  | append_singleton calls call ih =>
    rw [served_append]
    refine answer_depth sqlx limit (hcalls call (by simp)) (ih fun call hcall => ?_)
    exact hcalls call (List.mem_append_left _ hcall)

variable {sqlx limit}

/-- No reader has the write lock. -/
def WriterLock (w : World D S) : Prop := ∀ reader, w.file.lock ≠ some (readerId reader)

/-- A server beside one that has served the requests: the readers are the same, and the file
but for the write lock. -/
structure Server.Beside (server σ : Server D S) : Prop where
  readers : server.readers = σ.readers
  alike : server.file.Alike σ.file
  readOnly : server.ReadOnly
  lock : WriterLock server.onWriter
  lock' : WriterLock σ.onWriter

variable (sqlx limit) in
/-- A `query` on the two servers. -/
theorem drive_beside {server σ : Server D S} (h : server.Beside σ) (ahead : Nat → Nat)
    (reader patience : Nat) (response : QueryResponse) {text : List (Statement D S SqliteRow)}
    (hkeeps : ∀ s ∈ text, s.liftsQueryOnly = false) :
    let driven := driveAhead (queryBody limit) databaseError ahead patience
      (server.onReader reader) response
      (stream sqlx.engine (readerId reader) (server.onReader reader) text)
    let driven' := driveAhead (queryBody limit) databaseError ahead patience
      (σ.onReader reader) response (stream sqlx.engine (readerId reader) (σ.onReader reader) text)
    driven'.world = driven.world.onFile σ.file ∧ driven'.outcome = driven.outcome ∧
      driven.world.file = server.file ∧ driven.world.ReadOnly := by
  have hreader : σ.onReader reader = (server.onReader reader).onFile σ.file := by
    simp only [Server.onReader, World.onFile, h.readers]
  have halike : σ.file.Alike (server.onReader reader).file :=
    ⟨h.alike.contents.symm, h.alike.version.symm⟩
  obtain ⟨hstream, hfiles⟩ := stream_onFile sqlx.engine (readerId reader) (h.readOnly reader)
    halike (h.lock reader) (h.lock' reader) hkeeps
  let onFile : World D S → World D S := fun w => w.onFile σ.file
  simp only [hreader, hstream]
  have hmap := driveAhead_map (queryBody limit) databaseError ahead onFile patience
    (server.onReader reader) response
    (stream sqlx.engine (readerId reader) (server.onReader reader) text)
  have hworld := congrArg Driven.world hmap
  have houtcome := congrArg Driven.outcome hmap
  refine ⟨hworld, houtcome, ?_, ?_⟩
  · exact driveAhead_world (I := fun w : World D S => w.file = server.file) patience response rfl
      hfiles
  · exact driveAhead_world (I := World.ReadOnly) patience response (h.readOnly reader)
      (stream_world (h.readOnly reader) fun w hw s hs =>
        (exec_readOnly sqlx.engine (readerId reader) hw (hkeeps s hs)).2)

/-! ## What each request is at -/

/-- A batch whose transaction is open: what is left of it is what is left of the batch that
runs alone on the server `σ`. -/
structure Flight.Open (sqlx : Sqlx D S) (limit : Nat) (σ server : Server D S) (f : Flight D S)
    (waits : Nat) (statements : List SqlRequest) : Prop where
  inBatch : f.stage.inBatch = true
  answer : ∀ server : Server D S, server.answer sqlx limit f.call =
    let ran := runBatch sqlx limit ⟨waits, f.call.ahead⟩ statements server.onWriter
    (server.setWriter ran.1, .batch ran.2)
  finishes : Finishes sqlx limit f.call.ahead server.onWriter f.stage
    (runBatch sqlx limit ⟨waits, f.call.ahead⟩ statements σ.onWriter)
  begun : server.onWriter.Begun
  keeps : f.stage.Keeps sqlx

/-- A request has run its text, or has not begun it, or is a batch whose transaction is
open. -/
def Flight.Fits (sqlx : Sqlx D S) (limit : Nat) (σ server : Server D S) (f : Flight D S) : Prop :=
  f.stage.conclusion.isSome = true ∨ f.stage.Ready sqlx limit f.call ∨
    ∃ waits statements, f.Open sqlx limit σ server waits statements

/-- A request that has no open transaction does not look at the servers, and one that has
looks at the writer. -/
theorem Flight.Fits.mono {σ σ' server server' : Server D S} {f : Flight D S}
    (h : f.Fits sqlx limit σ server) (hsame : f.stage.inBatch = true →
      σ'.onWriter = σ.onWriter ∧ server'.onWriter = server.onWriter) :
    f.Fits sqlx limit σ' server' := by
  rcases h with hsome | hready | ⟨waits, statements, hopen⟩
  · exact .inl hsome
  · exact .inr (.inl hready)
  · obtain ⟨hσ, hserver⟩ := hsame hopen.inBatch
    refine .inr (.inr ⟨waits, statements, hopen.inBatch, hopen.answer, ?_, ?_, hopen.keeps⟩)
    · rw [hσ, hserver]
      exact hopen.finishes
    · rw [hserver]
      exact hopen.begun

variable (sqlx limit)

/-- The requests that have taken effect, in this order: a `query` or an `execute` when it runs
its text, and otherwise a request when it is answered. -/
def Traffic.record (order : List (Nat × Call)) (c : Traffic D S) :
    Action → Traffic D S → List (Nat × Call)
  | .send _, _ => order
  | .step i, c' =>
    match c.flights[i]?, c'.flights[i]? with
    | some f, some f' =>
      if f.stage.conclusion.isNone && f'.stage.conclusion.isSome then order ++ [(i, f.call)]
      else order
    | _, _ => order

/-- A step of a handler, or a plain request. -/
def Action.Plain : Action → Prop
  | .send call => call.Plain sqlx
  | .step _ => True

/-- The requests have been answered as if they had been served in the order `order`. -/
structure Serial (contents : D) (session : S) (c : Traffic D S) (order : List (Nat × Call)) :
    Prop where
  plain : ∀ f ∈ c.flights, f.call.Plain sqlx
  beside : c.server.Beside (served sqlx limit contents session (order.map Prod.snd))
  idle : (∀ f ∈ c.flights, f.stage.inBatch = false) →
    c.server = served sqlx limit contents session (order.map Prod.snd)
  fits : ∀ f ∈ c.flights,
    f.Fits sqlx limit (served sqlx limit contents session (order.map Prod.snd)) c.server
  alone : ∀ (i j : Nat) (f g : Flight D S), c.flights[i]? = some f → c.flights[j]? = some g →
    f.stage.holds = some writerId → g.stage.holds = some writerId → i = j
  once : (order.map Prod.fst).Nodup
  listed : ∀ (i : Nat) (f : Flight D S), c.flights[i]? = some f →
    (f.stage.conclusion.isSome = true ↔ i ∈ order.map Prod.fst)
  answers : ∀ before i call after, order = before ++ (i, call) :: after →
    ∃ stage, c.flights[i]? = some ⟨call, stage⟩ ∧ stage.conclusion =
      some ((served sqlx limit contents session (before.map Prod.snd)).answer sqlx limit call).2

variable {sqlx limit} {contents : D} {session : S} {c : Traffic D S} {order : List (Nat × Call)}

/-- `sqlx` takes the writer to be in no transaction when no batch is at work. -/
theorem Serial.depth (h : Serial sqlx limit contents session c order) :
    (served sqlx limit contents session (order.map Prod.snd)).writer.depth = 0 := by
  refine served_depth sqlx limit contents session fun call hcall => ?_
  obtain ⟨⟨i, call⟩, hmem, rfl⟩ := List.mem_map.mp hcall
  obtain ⟨before, after, horder⟩ := List.append_of_mem hmem
  obtain ⟨stage, hstage, _⟩ := h.answers before i call after horder
  exact h.plain _ (List.mem_of_getElem? hstage)

/-! ## One flight goes on -/

theorem Stage.holds_of_inBatch {stage : Stage D S} (h : stage.inBatch = true) :
    stage.holds = some writerId := by
  cases stage <;> first | rfl | exact absurd h (by simp [Stage.inBatch])

theorem Stage.conclusion_of_inBatch {stage : Stage D S} (h : stage.inBatch = true) :
    stage.conclusion = none := by
  cases stage <;> first | rfl | exact absurd h (by simp [Stage.inBatch])

theorem Stage.inBatch_of_conclusion {stage : Stage D S} {answer : Answer}
    (h : stage.conclusion = some answer) : stage.inBatch = false := by
  rw [← Bool.not_eq_true]
  intro hbatch
  rw [Stage.conclusion_of_inBatch hbatch] at h
  simp at h

/-- Who has the writer outside of a batch has it on the server of the order. -/
theorem Serial.quiet (h : Serial sqlx limit contents session c order) {i : Nat} {f : Flight D S}
    (hf : c.flights[i]? = some f) (hholds : f.stage.holds = some writerId)
    (hout : f.stage.inBatch = false) :
    c.server = served sqlx limit contents session (order.map Prod.snd) := by
  refine h.idle fun g hg => ?_
  obtain ⟨j, hj⟩ := List.mem_iff_getElem?.mp hg
  by_cases hbatch : g.stage.inBatch = true
  · obtain rfl := h.alone i j f g hf hj hholds (Stage.holds_of_inBatch hbatch)
    rw [← Option.some.inj (hf.symm.trans hj)]
    exact hout
  · simpa using hbatch

/-- A flight goes on: where the other flights are, and where it is. -/
theorem flights_set {flights : List (Flight D S)} {i : Nat} {f : Flight D S} (stage' : Stage D S)
    (hf : flights[i]? = some f) {j : Nat} {g : Flight D S}
    (hg : (flights.set i { f with stage := stage' })[j]? = some g) :
    (j = i ∧ g = { f with stage := stage' }) ∨ (j ≠ i ∧ flights[j]? = some g) := by
  by_cases hji : j = i
  · subst hji
    obtain ⟨hlt, _⟩ := List.getElem?_eq_some_iff.mp hf
    rw [List.getElem?_set_self hlt] at hg
    exact .inl ⟨rfl, (Option.some.inj hg).symm⟩
  · rw [List.getElem?_set_ne (Ne.symm hji)] at hg
    exact .inr ⟨hji, hg⟩

/-- The flights that are not in a batch behind a step were not in one before it. -/
theorem idle_set {flights : List (Flight D S)} {i : Nat} {f : Flight D S} {stage' : Stage D S}
    (hf : flights[i]? = some f)
    (hidle : ∀ g ∈ flights.set i { f with stage := stage' }, g.stage.inBatch = false)
    (hout : f.stage.inBatch = false) : ∀ g ∈ flights, g.stage.inBatch = false := by
  intro g hg
  obtain ⟨j, hj⟩ := List.mem_iff_getElem?.mp hg
  by_cases hji : j = i
  · subst hji
    rw [← Option.some.inj (hf.symm.trans hj)]
    exact hout
  · exact hidle g (List.mem_of_getElem? ((List.getElem?_set_ne (Ne.symm hji)).trans hj))

/-- Where a flight is does not matter for the requests that there are. -/
theorem plain_set {flights : List (Flight D S)} {i : Nat} {f : Flight D S} (stage' : Stage D S)
    (hf : flights[i]? = some f) (hplain : ∀ f ∈ flights, f.call.Plain sqlx) :
    ∀ g ∈ flights.set i { f with stage := stage' }, g.call.Plain sqlx := by
  intro g hg
  obtain ⟨j, hj⟩ := List.mem_iff_getElem?.mp hg
  rcases flights_set stage' hf hj with ⟨_, rfl⟩ | ⟨_, hold⟩
  · exact hplain f (List.mem_of_getElem? hf)
  · exact hplain g (List.mem_of_getElem? hold)

/-- A flight gets the writer only when nobody else has it. -/
theorem alone_set {flights : List (Flight D S)} {i : Nat} {f : Flight D S} {stage' : Stage D S}
    (hf : flights[i]? = some f)
    (halone : ∀ (i j : Nat) (f g : Flight D S), flights[i]? = some f → flights[j]? = some g →
      f.stage.holds = some writerId → g.stage.holds = some writerId → i = j)
    (hwriter : stage'.holds = some writerId → ∀ (j : Nat) (g : Flight D S), j ≠ i →
      flights[j]? = some g → g.stage.holds ≠ some writerId) :
    ∀ (j k : Nat) (g g' : Flight D S),
      (flights.set i { f with stage := stage' })[j]? = some g →
      (flights.set i { f with stage := stage' })[k]? = some g' →
      g.stage.holds = some writerId → g'.stage.holds = some writerId → j = k := by
  intro j k g g' hg hg' hholds hholds'
  rcases flights_set stage' hf hg with ⟨rfl, rfl⟩ | ⟨hj, hold⟩
  · rcases flights_set stage' hf hg' with ⟨rfl, rfl⟩ | ⟨hk, hold'⟩
    · rfl
    · exact absurd hholds' (hwriter hholds k g' hk hold')
  · rcases flights_set stage' hf hg' with ⟨rfl, rfl⟩ | ⟨hk, hold'⟩
    · exact absurd hholds (hwriter hholds' j g hj hold)
    · exact halone j k g g' hold hold' hholds hholds'

/-- A flight goes on, and does not take effect. -/
theorem Serial.keep (h : Serial sqlx limit contents session c order) {i : Nat} {f : Flight D S}
    (hf : c.flights[i]? = some f) {server' : Server D S} {stage' : Stage D S}
    (hconclusion : stage'.conclusion = f.stage.conclusion)
    (hbeside : server'.Beside (served sqlx limit contents session (order.map Prod.snd)))
    (hidle : (∀ g ∈ c.flights.set i { f with stage := stage' }, g.stage.inBatch = false) →
      server' = served sqlx limit contents session (order.map Prod.snd))
    (hfits : ({ f with stage := stage' } : Flight D S).Fits sqlx limit
      (served sqlx limit contents session (order.map Prod.snd)) server')
    (hothers : ∀ (j : Nat) (g : Flight D S), j ≠ i → c.flights[j]? = some g →
      g.stage.inBatch = true → server'.onWriter = c.server.onWriter)
    (hwriter : stage'.holds = some writerId → ∀ (j : Nat) (g : Flight D S), j ≠ i →
      c.flights[j]? = some g → g.stage.holds ≠ some writerId) :
    Serial sqlx limit contents session
      ⟨server', c.flights.set i { f with stage := stage' }⟩ order where
  plain := plain_set stage' hf h.plain
  beside := hbeside
  idle := hidle
  fits g hg := by
    obtain ⟨j, hj⟩ := List.mem_iff_getElem?.mp hg
    rcases flights_set stage' hf hj with ⟨rfl, rfl⟩ | ⟨hji, hold⟩
    · exact hfits
    · exact (h.fits g (List.mem_of_getElem? hold)).mono fun hbatch =>
        ⟨rfl, hothers j g hji hold hbatch⟩
  alone := alone_set hf h.alone hwriter
  once := h.once
  listed j g hg := by
    rcases flights_set stage' hf hg with ⟨rfl, rfl⟩ | ⟨_, hold⟩
    · rw [← h.listed j f hf, hconclusion]
    · exact h.listed j g hold
  answers before j call after horder := by
    obtain ⟨stage, hstage, hanswer⟩ := h.answers before j call after horder
    by_cases hji : j = i
    · subst hji
      obtain rfl := Option.some.inj (hf.symm.trans hstage)
      obtain ⟨hlt, _⟩ := List.getElem?_eq_some_iff.mp hf
      exact ⟨stage', List.getElem?_set_self hlt, hconclusion.trans hanswer⟩
    · exact ⟨stage, (List.getElem?_set_ne (Ne.symm hji)).trans hstage, hanswer⟩

/-- A flight takes effect: it is the next one in the order. -/
theorem Serial.conclude (h : Serial sqlx limit contents session c order) {i : Nat}
    {f : Flight D S} (hf : c.flights[i]? = some f) (hnone : f.stage.conclusion = none)
    {server' : Server D S} {stage' : Stage D S} {σ σ' : Server D S} {answer : Answer}
    (hσ : served sqlx limit contents session (order.map Prod.snd) = σ)
    (hanswer : σ.answer sqlx limit f.call = (σ', answer))
    (hconclusion : stage'.conclusion = some answer)
    (hbeside : server'.Beside σ')
    (hidle : (∀ g ∈ c.flights.set i { f with stage := stage' }, g.stage.inBatch = false) →
      server' = σ')
    (hothers : ∀ (j : Nat) (g : Flight D S), j ≠ i → c.flights[j]? = some g →
      g.stage.inBatch = true →
      σ'.onWriter = σ.onWriter ∧ server'.onWriter = c.server.onWriter)
    (hwriter : stage'.holds = some writerId → ∀ (j : Nat) (g : Flight D S), j ≠ i →
      c.flights[j]? = some g → g.stage.holds ≠ some writerId) :
    Serial sqlx limit contents session
      ⟨server', c.flights.set i { f with stage := stage' }⟩ (order ++ [(i, f.call)]) := by
  have hserved : served sqlx limit contents session ((order ++ [(i, f.call)]).map Prod.snd) =
      σ' := by
    rw [List.map_append, List.map_singleton, served_append, hσ, hanswer]
  obtain ⟨hlt, _⟩ := List.getElem?_eq_some_iff.mp hf
  have hi : i ∉ order.map Prod.fst := fun hmem => by
    have := (h.listed i f hf).mpr hmem
    rw [hnone] at this
    simp at this
  have hsome : stage'.conclusion.isSome = true := by rw [hconclusion]; rfl
  constructor
  · exact plain_set stage' hf h.plain
  · rw [hserved]
    exact hbeside
  · rw [hserved]
    exact hidle
  · intro g hg
    rw [hserved]
    obtain ⟨j, hj⟩ := List.mem_iff_getElem?.mp hg
    rcases flights_set stage' hf hj with ⟨rfl, rfl⟩ | ⟨hji, hold⟩
    · exact .inl hsome
    · refine (h.fits g (List.mem_of_getElem? hold)).mono fun hbatch => ?_
      rw [hσ]
      exact hothers j g hji hold hbatch
  · exact alone_set hf h.alone hwriter
  · rw [List.map_append, List.map_singleton]
    refine List.nodup_append.mpr ⟨h.once, by simp, fun j hj k hk hjk => hi ?_⟩
    obtain rfl := List.mem_singleton.mp hk
    exact hjk ▸ hj
  · intro j g hg
    rw [List.map_append, List.map_singleton, List.mem_append, List.mem_singleton]
    rcases flights_set stage' hf hg with ⟨rfl, rfl⟩ | ⟨hji, hold⟩
    · simp [hsome]
    · rw [h.listed j g hold]
      simp [hji]
  · intro before j call after horder
    -- the entry is the new one or one of the old ones
    rcases List.eq_nil_or_concat after with rfl | ⟨after, last, rfl⟩
    · obtain ⟨rfl, hlast⟩ := List.append_inj' horder.symm rfl
      obtain ⟨rfl, rfl⟩ := Prod.mk.inj (List.singleton_inj.mp hlast)
      rw [hσ, hanswer]
      exact ⟨stage', List.getElem?_set_self hlt, hconclusion⟩
    · rw [List.concat_eq_append, ← List.cons_append, ← List.append_assoc] at horder
      obtain ⟨hold, _⟩ := List.append_inj' horder rfl
      obtain ⟨stage, hstage, hreply⟩ := h.answers before j call after hold
      have hji : j ≠ i := fun hji => hi (by rw [hold]; simp [hji])
      exact ⟨stage, (List.getElem?_set_ne (Ne.symm hji)).trans hstage, hreply⟩

/-! ## What a step can do -/

/-- What every statement on the writer keeps, every step of the handler that has the writer
keeps. -/
theorem move_writer {I : World D S → Prop} (hI : WriterInvariant sqlx I) {f : Flight D S}
    (hholds : f.stage.holds = some writerId) (hw : I c.server.onWriter) {server' : Server D S} {stage' : Stage D S}
    (hmove : c.move sqlx limit f = some (server', stage')) :
    ∃ w', server' = c.server.setWriter w' ∧ I w' := by
  obtain ⟨call, stage⟩ := f
  cases stage with
  | waiting => simp [Stage.holds] at hholds
  | querying reader => simp [Stage.holds, readerId, writerId] at hholds
  | answered => simp [Stage.holds] at hholds
  | executing patience result text =>
    obtain ⟨rfl, _⟩ := Prod.mk.inj (Option.some.inj hmove)
    exact ⟨_, rfl, hI.executeStep hw _ _ _ _⟩
  | beginning patience statements =>
    obtain ⟨rfl, _⟩ := Prod.mk.inj (Option.some.inj hmove)
    exact ⟨_, rfl, hI.beginStep hw _ _⟩
  | between patience results rest =>
    obtain ⟨rfl, _⟩ := Prod.mk.inj (Option.some.inj hmove)
    exact ⟨_, rfl, hI.betweenStep hw _ _ _⟩
  | inside patience results result text rest =>
    obtain ⟨rfl, _⟩ := Prod.mk.inj (Option.some.inj hmove)
    exact ⟨_, rfl, hI.insideStep hw _ _ _ _ _ _⟩

/-- A handler that has run its text only has to say so. -/
theorem move_concluded {f : Flight D S} {answer : Answer}
    (hconclusion : f.stage.conclusion = some answer) {server' : Server D S} {stage' : Stage D S}
    (hmove : c.move sqlx limit f = some (server', stage')) :
    server' = c.server ∧ stage' = .answered answer := by
  obtain ⟨call, stage⟩ := f
  cases stage with
  | querying reader patience response text =>
    cases text with
    | nil =>
      obtain ⟨rfl, rfl⟩ := Prod.mk.inj (Option.some.inj hmove)
      cases patience with
      | zero =>
        obtain rfl := Option.some.inj hconclusion
        exact ⟨by simp [stream, setReader_onReader], rfl⟩
      | succ patience =>
        obtain rfl := Option.some.inj hconclusion
        exact ⟨rfl, rfl⟩
    | cons s text => cases patience <;> simp [Stage.conclusion] at hconclusion
  | executing patience result text =>
    cases text with
    | nil =>
      obtain ⟨rfl, rfl⟩ := Prod.mk.inj (Option.some.inj hmove)
      cases patience with
      | zero =>
        obtain rfl := Option.some.inj hconclusion
        exact ⟨by simp [stream, setWriter_onWriter], rfl⟩
      | succ patience =>
        obtain rfl := Option.some.inj hconclusion
        exact ⟨rfl, rfl⟩
    | cons s text => cases patience <;> simp [Stage.conclusion] at hconclusion
  | answered => simp [Traffic.move] at hmove
  | _ => simp [Stage.conclusion] at hconclusion

/-- A handler with no text to run is answered whatever the server is. -/
theorem Stage.Ready.concluded {call : Call} {stage : Stage D S} {answer : Answer}
    (h : stage.Ready sqlx limit call) (hconclusion : stage.conclusion = some answer)
    (server : Server D S) : server.answer sqlx limit call = (server, answer) := by
  cases stage with
  | querying reader patience response text =>
    cases text with
    | nil =>
      rw [h.2.2 server, stream]
      cases patience with
      | zero =>
        obtain rfl := Option.some.inj hconclusion
        simp [driveAhead_zero, setReader_onReader]
      | succ patience =>
        obtain rfl := Option.some.inj hconclusion
        simp [driveAhead_nil, setReader_onReader]
    | cons s text => cases patience <;> simp [Stage.conclusion] at hconclusion
  | executing patience result text =>
    cases text with
    | nil =>
      rw [h.2 server, stream]
      cases patience with
      | zero =>
        obtain rfl := Option.some.inj hconclusion
        rw [driveAhead_zero, lead_nil]
        rfl
      | succ patience =>
        obtain rfl := Option.some.inj hconclusion
        rw [driveAhead_nil]
        rfl
    | cons s text => cases patience <;> simp [Stage.conclusion] at hconclusion
  | answered =>
    obtain rfl := Option.some.inj hconclusion
    exact h server
  | _ => simp [Stage.conclusion] at hconclusion

/-! ## Servers beside each other -/

/-- A reader has run its text on both. -/
theorem Server.Beside.setReader {server σ : Server D S} (h : server.Beside σ) (reader : Nat)
    {w : World D S} (hfile : w.file = server.file) (hw : w.ReadOnly) :
    (server.setReader reader w).Beside (σ.setReader reader (w.onFile σ.file)) where
  readers := by simp only [Server.setReader, World.onFile, h.readers]
  alike := by simpa only [Server.setReader, World.onFile, hfile] using h.alike
  readOnly other := by
    by_cases hother : other = reader
    · subst hother
      simpa [Server.onReader, Server.setReader] using hw
    · simpa [Server.onReader, Server.setReader, World.onFile, hother] using
        (h.readOnly other).onFile w.file
  lock := by
    have hwriter : (server.setReader reader w).onWriter = server.onWriter := by
      simp only [Server.onWriter, Server.setReader, hfile]
    rw [hwriter]
    exact h.lock
  lock' := h.lock'

/-- The writer has run its text on both. -/
theorem Server.Beside.setWriter {server σ : Server D S} (h : server.Beside σ) {w : World D S}
    (hlock : WriterLock w) :
    (server.setWriter w).Beside (σ.setWriter w) where
  readers := h.readers
  alike := .refl _
  readOnly reader := (h.readOnly reader).onFile w.file
  lock := hlock
  lock' := hlock

/-- The writer is in a transaction on the one, which the other has not begun. -/
theorem Server.Beside.within {server σ : Server D S} (h : server.Beside σ) {w : World D S}
    (halike : w.file.Alike server.file) (hlock : WriterLock w) :
    (server.setWriter w).Beside σ where
  readers := h.readers
  alike := halike.trans h.alike
  readOnly reader := (h.readOnly reader).onFile w.file
  lock := hlock
  lock' := h.lock'

/-- Servers that differ in the writer are the same once it is set. -/
theorem Server.Beside.setWriter_eq {server σ : Server D S} (h : server.Beside σ) (w : World D S) :
    server.setWriter w = σ.setWriter w := by
  simp only [Server.setWriter, h.readers]

variable (sqlx) in
/-- No statement on the writer gives the lock to a reader. -/
theorem exec_writerLock (w : World D S) (s : Statement D S SqliteRow) (hw : WriterLock w) :
    WriterLock (exec sqlx.engine writerId w s).world := by
  intro reader
  rcases exec_lock sqlx.engine writerId (w := w) s with hlock | hlock | hlock <;> rw [hlock]
  · exact hw reader
  · simp
  · simp [writerId, readerId]

variable (sqlx) in
theorem writerLock_invariant : WriterInvariant sqlx (WriterLock (D := D) (S := S)) where
  exec w s hw := exec_writerLock sqlx w s hw
  depth _ _ hw := hw

/-! ## A step in the order -/

theorem Flight.Fits.ready {σ server : Server D S} {f : Flight D S}
    (h : f.Fits sqlx limit σ server) (hnone : f.stage.conclusion = none)
    (hout : f.stage.inBatch = false) : f.stage.Ready sqlx limit f.call := by
  rcases h with hsome | hready | ⟨waits, statements, hopen⟩
  · rw [hnone] at hsome
    simp at hsome
  · exact hready
  · rw [hopen.inBatch] at hout
    simp at hout

theorem Flight.Fits.opened {σ server : Server D S} {f : Flight D S}
    (h : f.Fits sqlx limit σ server) (hbatch : f.stage.inBatch = true) :
    ∃ waits statements, f.Open sqlx limit σ server waits statements := by
  rcases h with hsome | hready | hopen
  · rw [Stage.conclusion_of_inBatch hbatch] at hsome
    simp at hsome
  · obtain ⟨call, stage⟩ := f
    cases stage with
    | between => exact hready.elim
    | inside => exact hready.elim
    | _ => simp [Stage.inBatch] at hbatch
  · exact hopen

/-- The handler that has the writer takes effect. -/
theorem Serial.conclude_writer (h : Serial sqlx limit contents session c order) {i : Nat}
    {f : Flight D S} (hf : c.flights[i]? = some f) (hholds : f.stage.holds = some writerId)
    (hnone : f.stage.conclusion = none) {w' : World D S} {stage' : Stage D S} {answer : Answer}
    (hanswer : (served sqlx limit contents session (order.map Prod.snd)).answer sqlx limit f.call =
      ((served sqlx limit contents session (order.map Prod.snd)).setWriter w', answer))
    (hconclusion : stage'.conclusion = some answer)
    (hlock : WriterLock w') :
    Serial sqlx limit contents session
      ⟨c.server.setWriter w', c.flights.set i { f with stage := stage' }⟩
      (order ++ [(i, f.call)]) := by
  refine h.conclude hf hnone rfl hanswer hconclusion (h.beside.setWriter hlock)
    (fun _ => h.beside.setWriter_eq w') ?_ ?_
  · intro j g hji hg hbatch
    exact absurd (h.alone j i g f hg hf (Stage.holds_of_inBatch hbatch) hholds) hji
  · intro _ j g hji hg hwriter
    exact hji (h.alone j i g f hg hf hwriter hholds)

/-- The handler that has the writer goes on in its transaction. -/
theorem Serial.keep_writer (h : Serial sqlx limit contents session c order) {i : Nat}
    {f : Flight D S} (hf : c.flights[i]? = some f) (hholds : f.stage.holds = some writerId)
    (hnone : f.stage.conclusion = none) {w' : World D S} {stage' : Stage D S} {waits : Nat}
    {statements : List SqlRequest}
    (hopen : ({ f with stage := stage' } : Flight D S).Open sqlx limit
      (served sqlx limit contents session (order.map Prod.snd)) (c.server.setWriter w')
      waits statements)
    (halike : w'.file.Alike c.server.file)
    (hlock : WriterLock w') :
    Serial sqlx limit contents session
      ⟨c.server.setWriter w', c.flights.set i { f with stage := stage' }⟩ order := by
  obtain ⟨hlt, _⟩ := List.getElem?_eq_some_iff.mp hf
  have hbatch : stage'.inBatch = true := hopen.inBatch
  refine h.keep hf ((Stage.conclusion_of_inBatch hbatch).trans hnone.symm)
    (h.beside.within halike hlock) ?_ (.inr (.inr ⟨waits, statements, hopen⟩)) ?_ ?_
  · intro hidle
    have := hidle _ (List.mem_of_getElem? (List.getElem?_set_self hlt))
    rw [hbatch] at this
    simp at this
  · intro j g hji hg hbatch
    exact absurd (h.alone j i g f hg hf (Stage.holds_of_inBatch hbatch) hholds) hji
  · intro _ j g hji hg hwriter
    exact hji (h.alone j i g f hg hf hwriter hholds)

/-- A `query` runs its text. -/
theorem Serial.query (h : Serial sqlx limit contents session c order) {i : Nat} {call : Call}
    {reader patience : Nat} {response : QueryResponse}
    {text : List (Statement D S SqliteRow)}
    (hf : c.flights[i]? = some ⟨call, .querying reader patience response text⟩)
    (hnone : (Stage.querying reader patience response text).conclusion = none)
    {server' : Server D S} {stage' : Stage D S}
    (hstep : queryStep sqlx limit c.server call.ahead reader patience response text =
      (server', stage')) :
    Serial sqlx limit contents session
      ⟨server', c.flights.set i ⟨call, stage'⟩⟩
      (if stage'.conclusion.isSome then order ++ [(i, call)] else order) := by
  obtain ⟨hone, hkeeps, hanswer⟩ := (h.fits _ (List.mem_of_getElem? hf)).ready hnone rfl
  have htext : text ≠ [] := by
    rintro rfl
    cases patience <;> simp [Stage.conclusion] at hnone
  obtain ⟨rfl, hconclusion⟩ := queryStep_alone hone htext hstep
  obtain ⟨hworld, houtcome, hfile, hreads⟩ :=
    drive_beside sqlx limit h.beside call.ahead reader patience response hkeeps
  have hσ := hanswer (served sqlx limit contents session (order.map Prod.snd))
  simp only [hworld, houtcome] at hσ
  have hwaits : stage'.holds ≠ some writerId := by
    have := queryStep_holds sqlx limit c.server call.ahead reader patience response text
    rwa [hstep] at this
  have hbeside := h.beside.setReader reader hfile hreads
  rw [hconclusion]
  refine h.conclude hf hnone rfl hσ hconclusion hbeside ?_ ?_ fun hholds => absurd hholds hwaits
  · intro hidle
    rw [← h.idle (idle_set hf hidle rfl)]
    simp only [Server.setReader, World.onFile, hfile]
  · intro j g _ _ _
    exact ⟨rfl, by simp only [Server.onWriter, Server.setReader, hfile]⟩

/-- An `execute` runs its text. -/
theorem Serial.execute (h : Serial sqlx limit contents session c order) {i : Nat} {call : Call}
    {patience : Nat} {result : ExecuteResult} {text : List (Statement D S SqliteRow)}
    (hf : c.flights[i]? = some ⟨call, .executing patience result text⟩)
    (hnone : (Stage.executing patience result text).conclusion = none)
    {w' : World D S} {stage' : Stage D S}
    (hstep : executeStep sqlx c.server.onWriter call.ahead patience result text = (w', stage')) :
    Serial sqlx limit contents session
      ⟨c.server.setWriter w', c.flights.set i ⟨call, stage'⟩⟩
      (if stage'.conclusion.isSome then order ++ [(i, call)] else order) := by
  obtain ⟨hone, hanswer⟩ := (h.fits _ (List.mem_of_getElem? hf)).ready hnone rfl
  have htext : text ≠ [] := by
    rintro rfl
    cases patience <;> simp [Stage.conclusion] at hnone
  have hlock : WriterLock w' := by
    have := (writerLock_invariant sqlx).executeStep h.beside.lock call.ahead patience result text
    rwa [hstep] at this
  obtain ⟨rfl, hconclusion⟩ := executeStep_alone hone htext hstep
  have hσ := hanswer (served sqlx limit contents session (order.map Prod.snd))
  rw [← h.quiet hf rfl rfl] at hσ
  rw [hconclusion]
  refine h.conclude_writer hf rfl hnone ?_ hconclusion hlock
  rw [← h.quiet hf rfl rfl]
  exact hσ

/-- A batch begins. -/
theorem Serial.begin (h : Serial sqlx limit contents session c order) {i : Nat} {call : Call}
    {waits : Nat} {statements : List SqlRequest}
    (hf : c.flights[i]? = some ⟨call, .beginning waits statements⟩)
    {w' : World D S} {stage' : Stage D S}
    (hstep : beginStep sqlx c.server.onWriter waits statements = (w', stage')) :
    Serial sqlx limit contents session
      ⟨c.server.setWriter w', c.flights.set i ⟨call, stage'⟩⟩
      (if stage'.conclusion.isSome then order ++ [(i, call)] else order) := by
  obtain ⟨hkeeps, hanswer⟩ := (h.fits _ (List.mem_of_getElem? hf)).ready rfl rfl
  have hlock : WriterLock w' := by
    have := (writerLock_invariant sqlx).beginStep h.beside.lock waits statements
    rwa [hstep] at this
  have hquiet := h.quiet hf rfl rfl
  have hdepth : c.server.onWriter.conn.depth = 0 := by
    rw [hquiet]
    exact h.depth
  rcases beginStep_between limit ⟨waits, call.ahead⟩ hdepth hstep with
    ⟨reply, rfl, hran⟩ | ⟨waits', rfl, hbegun, hfile, hfinishes⟩
  · refine h.conclude_writer hf rfl rfl ?_ rfl hlock
    rw [← hquiet, hanswer c.server]
    simp only [hran]
  · refine h.keep_writer hf rfl rfl ⟨rfl, hanswer, ?_, hbegun, hkeeps⟩ (hfile ▸ .refl _) hlock
    rw [← hquiet]
    exact hfinishes

/-- A step within a batch does a part of what is left of it. -/
theorem move_inBatch {f : Flight D S} (hbatch : f.stage.inBatch = true)
    {ending : World D S × Reply BatchResponse}
    (hfinishes : Finishes sqlx limit f.call.ahead c.server.onWriter f.stage ending)
    (hbegun : c.server.onWriter.Begun) (hkeeps : f.stage.Keeps sqlx)
    {server' : Server D S} {stage' : Stage D S}
    (hmove : c.move sqlx limit f = some (server', stage')) :
    ∃ w', server' = c.server.setWriter w' ∧ Finishes sqlx limit f.call.ahead w' stage' ending ∧
      ((∃ reply, stage' = .answered (.batch reply)) ∨
        stage'.inBatch = true ∧ stage'.Keeps sqlx ∧ StillOpen c.server.file w') := by
  have hopen : StillOpen c.server.file c.server.onWriter := ⟨hbegun, .refl _⟩
  obtain ⟨call, stage⟩ := f
  cases stage with
  | between patience results rest =>
    obtain ⟨rfl, rfl⟩ := Prod.mk.inj (Option.some.inj hmove)
    exact ⟨_, rfl, betweenStep_finishes hfinishes rfl, betweenStep_open hopen hkeeps rfl⟩
  | inside patience results result text rest =>
    obtain ⟨rfl, rfl⟩ := Prod.mk.inj (Option.some.inj hmove)
    exact ⟨_, rfl, insideStep_finishes hfinishes rfl, insideStep_open hopen hkeeps rfl⟩
  | _ => simp [Stage.inBatch] at hbatch

/-- A batch goes on. -/
theorem Serial.batch (h : Serial sqlx limit contents session c order) {i : Nat}
    {f : Flight D S} (hf : c.flights[i]? = some f) (hbatch : f.stage.inBatch = true)
    {server' : Server D S} {stage' : Stage D S}
    (hmove : c.move sqlx limit f = some (server', stage')) :
    Serial sqlx limit contents session
      ⟨server', c.flights.set i { f with stage := stage' }⟩
      (if stage'.conclusion.isSome then order ++ [(i, f.call)] else order) := by
  obtain ⟨waits, statements, hopen⟩ := (h.fits f (List.mem_of_getElem? hf)).opened hbatch
  have hholds := Stage.holds_of_inBatch hbatch
  have hnone := Stage.conclusion_of_inBatch hbatch
  obtain ⟨w', rfl, hfinishes, hend⟩ :=
    move_inBatch hbatch hopen.finishes hopen.begun hopen.keeps hmove
  obtain ⟨w'', hw'', hlock⟩ := move_writer (writerLock_invariant sqlx) hholds h.beside.lock
    hmove
  obtain rfl : w' = w'' := congrArg Server.onWriter hw''
  rcases hend with ⟨reply, rfl⟩ | ⟨hbatch', hkeeps, hbegun, halike⟩
  · refine h.conclude_writer hf hholds hnone ?_ rfl hlock
    rw [hopen.answer]
    generalize runBatch sqlx limit _ statements _ = ran at hfinishes ⊢
    cases hfinishes
    rfl
  · rw [Stage.conclusion_of_inBatch hbatch']
    exact h.keep_writer hf hholds hnone ⟨hbatch', hopen.answer, hfinishes, hbegun, hkeeps⟩
      halike hlock

/-- A handler gets its connection, or is answered without one. -/
theorem Serial.start (h : Serial sqlx limit contents session c order) {i : Nat} {call : Call}
    (hf : c.flights[i]? = some ⟨call, .waiting⟩) {server' : Server D S} {stage' : Stage D S}
    (hmove : c.move sqlx limit ⟨call, .waiting⟩ = some (server', stage')) :
    Serial sqlx limit contents session
      ⟨server', c.flights.set i ⟨call, stage'⟩⟩
      (if stage'.conclusion.isSome then order ++ [(i, call)] else order) := by
  have hready := startStep_ready limit
    ((h.fits _ (List.mem_of_getElem? hf)).ready rfl rfl)
  simp only [Traffic.move] at hmove
  split at hmove
  · simp at hmove
  · rename_i hfree
    obtain ⟨rfl, rfl⟩ := Prod.mk.inj (Option.some.inj hmove)
    have hwriter : (startStep sqlx call : Stage D S).holds = some writerId →
        ∀ (j : Nat) (g : Flight D S), j ≠ i → c.flights[j]? = some g →
          g.stage.holds ≠ some writerId := by
      intro hholds j g _ hg hg'
      exact hfree ⟨by rw [hholds]; rfl, g, List.mem_of_getElem? hg, hg'.trans hholds.symm⟩
    cases hconclusion : (startStep sqlx call : Stage D S).conclusion with
    | none =>
      exact h.keep hf hconclusion h.beside (fun hidle => h.idle (idle_set hf hidle rfl))
        (.inr (.inl hready)) (fun _ _ _ _ _ => rfl) hwriter
    | some answer =>
      exact h.conclude hf rfl rfl (hready.concluded hconclusion _) hconclusion h.beside
        (fun hidle => h.idle (idle_set hf hidle rfl)) (fun _ _ _ _ _ => ⟨rfl, rfl⟩) hwriter

/-- A handler takes a step. -/
theorem Serial.advance (h : Serial sqlx limit contents session c order) {i : Nat}
    {f : Flight D S} (hf : c.flights[i]? = some f) {server' : Server D S} {stage' : Stage D S}
    (hmove : c.move sqlx limit f = some (server', stage')) :
    Serial sqlx limit contents session
      ⟨server', c.flights.set i { f with stage := stage' }⟩
      (if f.stage.conclusion.isNone && stage'.conclusion.isSome then order ++ [(i, f.call)]
        else order) := by
  cases hconclusion : f.stage.conclusion with
  | some answer =>
    obtain ⟨rfl, rfl⟩ := move_concluded hconclusion hmove
    exact h.keep hf hconclusion.symm h.beside
      (fun hidle => h.idle (idle_set hf hidle (Stage.inBatch_of_conclusion hconclusion)))
      (.inl rfl) (fun _ _ _ _ _ => rfl) fun hholds => absurd hholds (by simp [Stage.holds])
  | none =>
    obtain ⟨call, stage⟩ := f
    cases stage with
    | waiting => exact h.start hf hmove
    | querying reader patience response text =>
      exact h.query hf hconclusion (Option.some.inj hmove)
    | executing patience result text =>
      obtain ⟨rfl, rfl⟩ := Prod.mk.inj (Option.some.inj hmove)
      exact h.execute hf hconclusion rfl
    | beginning patience statements =>
      obtain ⟨rfl, rfl⟩ := Prod.mk.inj (Option.some.inj hmove)
      exact h.begin hf rfl
    | between => exact h.batch hf rfl hmove
    | inside => exact h.batch hf rfl hmove
    | answered => simp [Stage.conclusion] at hconclusion

/-- A request arrives. -/
theorem Serial.send (h : Serial sqlx limit contents session c order) {call : Call}
    (hplain : call.Plain sqlx) :
    Serial sqlx limit contents session
      { c with flights := c.flights ++ [⟨call, .waiting⟩] } order := by
  have hcases {j : Nat} {g : Flight D S} (hg : (c.flights ++ [⟨call, .waiting⟩])[j]? = some g) :
      c.flights[j]? = some g ∨ (j = c.flights.length ∧ g = ⟨call, .waiting⟩) := by
    rcases Nat.lt_trichotomy j c.flights.length with hlt | heq | hgt
    · rw [List.getElem?_append_left hlt] at hg
      exact .inl hg
    · subst heq
      simp only [List.getElem?_concat_length, Option.some.injEq] at hg
      exact .inr ⟨rfl, hg.symm⟩
    · rw [List.getElem?_eq_none (by rw [List.length_append]; exact hgt)] at hg
      simp at hg
  have hlisted {j : Nat} {other : Call} {before after : List (Nat × Call)}
      (horder : order = before ++ (j, other) :: after) : j < c.flights.length := by
    obtain ⟨stage, hstage, _⟩ := h.answers before j other after horder
    exact (List.getElem?_eq_some_iff.mp hstage).1
  constructor
  · intro g hg
    rcases List.mem_append.mp hg with hg | hg
    · exact h.plain g hg
    · obtain rfl := List.mem_singleton.mp hg
      exact hplain
  · exact h.beside
  · exact fun hidle => h.idle fun g hg => hidle g (List.mem_append_left _ hg)
  · intro g hg
    rcases List.mem_append.mp hg with hg | hg
    · exact h.fits g hg
    · obtain rfl := List.mem_singleton.mp hg
      exact .inr (.inl hplain)
  · intro j k g g' hg hg' hholds hholds'
    rcases hcases hg with hg | ⟨rfl, rfl⟩
    · rcases hcases hg' with hg' | ⟨rfl, rfl⟩
      · exact h.alone j k g g' hg hg' hholds hholds'
      · simp [Stage.holds] at hholds'
    · simp [Stage.holds] at hholds
  · exact h.once
  · intro j g hg
    rcases hcases hg with hg | ⟨rfl, rfl⟩
    · exact h.listed j g hg
    · refine iff_of_false (by simp [Stage.conclusion]) fun hmem => ?_
      obtain ⟨⟨j, other⟩, hmem, rfl⟩ := List.mem_map.mp hmem
      obtain ⟨before, after, horder⟩ := List.append_of_mem hmem
      exact absurd (hlisted horder) (Nat.lt_irrefl _)
  · intro before j other after horder
    obtain ⟨stage, hstage, hanswer⟩ := h.answers before j other after horder
    exact ⟨stage, (List.getElem?_append_left (hlisted horder)).trans hstage, hanswer⟩

/-- Each step keeps the law. -/
theorem Serial.step (h : Serial sqlx limit contents session c order) {a : Action}
    (hplain : a.Plain sqlx) {c' : Traffic D S}
    (hstep : c.step sqlx limit a = some c') :
    Serial sqlx limit contents session c' (c.record order a c') := by
  cases a with
  | send call =>
    obtain rfl := Option.some.inj hstep
    exact h.send hplain
  | step i =>
    simp only [Traffic.step] at hstep
    cases hf : c.flights[i]? with
    | none => simp [hf] at hstep
    | some f =>
      simp only [hf] at hstep
      obtain ⟨⟨server', stage'⟩, hmove, rfl⟩ := Option.map_eq_some_iff.mp hstep
      obtain ⟨hlt, _⟩ := List.getElem?_eq_some_iff.mp hf
      simp only [Traffic.record, hf, List.getElem?_set_self hlt]
      exact h.advance hf hmove

variable (sqlx limit contents session)

end

end Tinkiva.Api
