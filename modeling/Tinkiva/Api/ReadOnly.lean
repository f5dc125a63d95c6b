import Tinkiva.Api.Service

/-!
# A query does not modify data

The readers are opened with `query_only`, and SQLite refuses every write on such a
connection.  The setting belongs to the connection, and `PRAGMA query_only = OFF` in the
text of a `query` turns it off for all later requests of that reader.

`query_keeps_contents` is the law for the histories without that pragma in a `query`.
The invariant is that every reader is `ReadOnly`: the setting is on, and an open
transaction of the reader has not written.  `execute` and `batch` may be anything, since
they run on the writer.
-/

namespace Tinkiva.Api

open Sqlite LazyStream

variable {D S : Type}

/-- Every reader refuses writes. -/
def Server.ReadOnly (server : Server D S) : Prop := ∀ reader, (server.onReader reader).ReadOnly

/-- No `query` turns `query_only` off. -/
def keepsQueryOnly (sqlx : Sqlx D S) : Call → Bool
  | .query _ _ _ request => (request.compiled sqlx).all fun s => !s.liftsQueryOnly
  | .execute _ _ _ | .batch _ _ _ => true

def Call.isQuery : Call → Bool
  | .query _ _ _ _ => true
  | .execute _ _ _ | .batch _ _ _ => false

section

variable (sqlx : Sqlx D S) (limit : Nat)

theorem keepsQueryOnly_query {acquired : Except AppError Unit} {reader : Nat}
    {patience : Patience} {request : SqlRequest} :
    keepsQueryOnly sqlx (.query acquired reader patience request) = true ↔
      ∀ s ∈ request.compiled sqlx, s.liftsQueryOnly = false := by
  simp [keepsQueryOnly]

theorem sent_keepsQueryOnly {acquired : Except AppError Unit} {request : SqlRequest}
    (hkeeps : ∀ s ∈ request.compiled sqlx, s.liftsQueryOnly = false) :
    ∀ s ∈ request.sent sqlx acquired, s.liftsQueryOnly = false := by
  cases acquired with
  | ok _ => exact hkeeps
  | error error => exact fun s hs => absurd hs List.not_mem_nil

/-! ## What one request keeps -/

/-- The loop of a `query` without the pragma leaves the reader read-only, and the
contents as they are. -/
theorem queryRun_readOnly (acquired : Except AppError Unit) (reader : Nat) (patience : Patience)
    {request : SqlRequest} {server : Server D S} (hserver : server.ReadOnly)
    (hkeeps : ∀ s ∈ request.compiled sqlx, s.liftsQueryOnly = false) :
    (queryRun sqlx limit acquired reader patience request server).world.ReadOnly ∧
      (queryRun sqlx limit acquired reader patience request server).world.file.contents =
        server.file.contents := by
  let I : World D S → Prop := fun w => w.ReadOnly ∧ w.file.contents = server.file.contents
  have hstep : ∀ w, I w → ∀ s ∈ request.sent sqlx acquired,
      I (exec sqlx.engine (readerId reader) w s).world := by
    intro w hw s hs
    obtain ⟨hfile, hw'⟩ := exec_readOnly sqlx.engine (readerId reader) hw.1
      (sent_keepsQueryOnly sqlx hkeeps s hs)
    exact ⟨hw', hfile.trans hw.2⟩
  exact driveAhead_world (I := I) patience.waits _ ⟨hserver reader, rfl⟩
    (stream_world (I := I) ⟨hserver reader, rfl⟩ hstep)

/-- A request without the pragma leaves every reader read-only. -/
theorem serve_readOnly {server : Server D S} {call : Call} (hserver : server.ReadOnly)
    (hkeeps : keepsQueryOnly sqlx call = true) :
    (server.serve sqlx limit call).ReadOnly := by
  have hothers : ∀ file reader, World.ReadOnly ⟨file, server.readers reader⟩ :=
    fun file reader => ⟨(hserver reader).queryOnly, (hserver reader).unwritten.view,
      (hserver reader).unwritten.saved⟩
  cases call with
  | query acquired reader patience request =>
    simp only [Server.serve, (query_run sqlx limit acquired reader patience request server).1]
    intro reader'
    simp only [Server.onReader, Server.setReader, Function.update_apply]
    split
    · have hkeeps := (keepsQueryOnly_query sqlx).mp hkeeps
      exact (queryRun_readOnly sqlx limit acquired reader patience hserver hkeeps).1
    · exact hothers _ reader'
  | execute acquired patience request =>
    simp only [Server.serve, (execute_run sqlx acquired patience request server).1]
    exact hothers _
  | batch acquired patience request =>
    simp only [Server.serve, batch]
    split
    · exact hserver
    · split
      · exact hserver
      · exact hothers _

/-- A `query` that a read-only reader answers regularly has been cut at the row limit,
or its text has no write. -/
theorem query_writes {acquired : Except AppError Unit} {reader : Nat} {patience : Patience}
    {request : SqlRequest} {server : Server D S} {response : QueryResponse}
    (hserver : server.ReadOnly) (hkeeps : ∀ s ∈ request.compiled sqlx, s.liftsQueryOnly = false)
    (hdone : (query sqlx limit acquired reader patience request server).2 = .done response) :
    response.truncated = true ∨ ∀ s ∈ request.compiled sqlx, s.writes = false := by
  obtain ⟨_, hreply⟩ := query_run sqlx limit acquired reader patience request server
  obtain ⟨rfl, hrun⟩ := hreply response hdone
  simp only [queryRun, SqlRequest.sent] at hrun
  obtain ⟨_, _, _, _, ⟨_, hall, _⟩ | ⟨_, _, htruncated⟩⟩ := queryBody_done (Nat.zero_le limit) hrun
  · apply Or.inr
    intro s hs
    obtain ⟨w, hw, hok⟩ := stream_ok (I := World.ReadOnly) (hserver reader)
      (fun w hw s hs => (exec_readOnly sqlx.engine (readerId reader) hw (hkeeps s hs)).2) hall s hs
    rw [← Bool.not_eq_true]
    intro hwrites
    rw [exec_write_readOnly sqlx.engine (readerId reader) hw.queryOnly hwrites] at hok
    simp at hok
  · exact Or.inl htruncated

/-! ## Along a history -/

variable (contents : D) (session : S) {server : Server D S}

theorem reachable_readOnly
    (h : (service sqlx limit contents session).ReachableVia
      (fun _ call => keepsQueryOnly sqlx call) server) : server.ReadOnly := by
  apply h.invariant
  · intro reader
    exact ⟨rfl, .of_none rfl⟩
  · intro server call server' _ hserver hkeeps hstep
    obtain rfl := Option.some.inj hstep
    exact serve_readOnly sqlx limit hserver hkeeps

/-- After any history in which no `query` turns `query_only` off, every sequence of
such queries leaves the committed contents as they are.  A `query` with a write in its
text is not answered regularly, unless the row limit has cut it before. -/
theorem query_keeps_contents {server' : Server D S}
    (h : (service sqlx limit contents session).ReachableVia
      (fun _ call => keepsQueryOnly sqlx call) server)
    (hqueries : (service sqlx limit contents session).RunFrom
      (fun _ call => call.isQuery ∧ keepsQueryOnly sqlx call) server server') :
    server'.file.contents = server.file.contents ∧
    ∀ acquired reader patience request response, (∃ s ∈ request.compiled sqlx, s.writes = true) →
      (∀ s ∈ request.compiled sqlx, s.liftsQueryOnly = false) →
      (query sqlx limit acquired reader patience request server').2 = .done response →
      response.truncated = true := by
  have hserver := reachable_readOnly sqlx limit contents session h
  have hserver' := reachable_readOnly sqlx limit contents session
    (StepSystem.RunFrom.trans h (hqueries.mono fun _ _ hcall => hcall.2))
  constructor
  · let I : Server D S → Prop := fun server' =>
      server'.ReadOnly ∧ server'.file.contents = server.file.contents
    suffices hkept : I server' from hkept.2
    apply hqueries.invariant ⟨hserver, rfl⟩
    intro server₁ call server₂ _ hserver₁ hcall hstep
    obtain rfl := Option.some.inj hstep
    refine ⟨serve_readOnly sqlx limit hserver₁.1 hcall.2, ?_⟩
    cases call with
    | query acquired reader patience request =>
      have hkeeps := (keepsQueryOnly_query sqlx).mp hcall.2
      have hkept := (queryRun_readOnly sqlx limit acquired reader patience hserver₁.1 hkeeps).2
      rw [Server.serve, (query_run sqlx limit acquired reader patience request server₁).1]
      exact hkept.trans hserver₁.2
    | execute acquired patience request => simp [Call.isQuery] at hcall
    | batch acquired patience request => simp [Call.isQuery] at hcall
  · intro acquired reader patience request response hwrites hkeeps hdone
    obtain ⟨s, hs, hwrite⟩ := hwrites
    rcases query_writes sqlx limit hserver' hkeeps hdone with htruncated | hplain
    · exact htruncated
    · rw [hplain s hs] at hwrite
      exact absurd hwrite (by decide)

end

/-- Two queries on a reader of a table with one row, after an `execute`: a `SELECT`, and
an `INSERT` that is refused. -/
theorem query_keeps_contents_selected :
    ((service numbers 10 [] ⟨0, 0⟩).playFrom
      (fun _ call => call.isQuery && keepsQueryOnly numbers call)
      ((service numbers 10 [] ⟨0, 0⟩).play (fun _ call => keepsQueryOnly numbers call)
        [.execute (.ok ()) 9 (plainRequest "INSERT INTO t VALUES (1)")])
      [.query (.ok ()) 0 9 (plainRequest "SELECT n FROM t"),
        .query (.ok ()) 0 9 (plainRequest "INSERT INTO t VALUES (2)")]).file.contents = [1] := by
  refine (query_keeps_contents numbers 10 [] ⟨0, 0⟩
    (StepSystem.reachable_play (fun _ _ h => h) _)
    (StepSystem.runFrom_playFrom (fun _ _ h => by simpa using h) _ _)).1.trans ?_
  decide

/-- A `query` of `PRAGMA query_only = OFF` lets the next `query` of the reader write. -/
theorem query_modifies :
    ∃ server result,
      (service numbers 10 [] ⟨0, 0⟩).run (.opened [] ⟨0, 0⟩)
        [.query (.ok ()) 0 9 (plainRequest "PRAGMA query_only = OFF")] = some server ∧
      server.file.contents = [] ∧
      (query numbers 10 (.ok ()) 0 9 (plainRequest "INSERT INTO t VALUES (1)") server).2 =
        .done result ∧
      (query numbers 10 (.ok ()) 0 9 (plainRequest "INSERT INTO t VALUES (1)")
        server).1.file.contents = [1] :=
  ⟨_, _, rfl, rfl, rfl, by decide⟩

end Tinkiva.Api
