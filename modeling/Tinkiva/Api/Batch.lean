import Tinkiva.Api.Handlers

/-!
# A batch is all or nothing

`batch` runs its statements inside one transaction on the writer.  Three things can break
the law.  A text of the client can end the transaction.  The rows of a text can pass the
limit before its last statement, so that the loop leaves statements behind and the batch
still commits.  And the transaction can be a savepoint: if a commit and the rollback behind it
have failed before, `sqlx` takes the writer to be in a transaction, and a batch inside a
transaction of the client does not commit.

`batch_atomic` is the law without these.  Its core is that no statement which the loop can
come to commits the transaction or is run outside of one (`HeldBatch`): then the file is as
the request has found it until the commit.
-/

namespace Tinkiva.Api

open Sqlite LazyStream

variable {D S : Type}

/-- `row_values` decodes the row. -/
def SqliteRow.decodable (row : SqliteRow) : Bool := (rowValues row).isOk

/-- No text passes the row limit before its last statement, when the texts are run
in order. -/
def TextsFit (E : Engine D S ExecuteResult) (limit : Nat) (w : World D S) :
    List (List (Statement D S SqliteRow)) → Prop
  | [] => True
  | text :: rest =>
    (ranRows E writerId w text.dropLast).length ≤ limit ∧
      TextsFit E limit (execAll E writerId w text) rest

/-- Whether the texts fit can be evaluated. -/
def TextsFit.decide (E : Engine D S ExecuteResult) (limit : Nat) (w : World D S) :
    (texts : List (List (Statement D S SqliteRow))) → Decidable (TextsFit E limit w texts)
  | [] => isTrue trivial
  | text :: rest =>
    have := TextsFit.decide E limit (execAll E writerId w text) rest
    inferInstanceAs (Decidable (_ ∧ _))

instance (E : Engine D S ExecuteResult) (limit : Nat) (w : World D S)
    (texts : List (List (Statement D S SqliteRow))) : Decidable (TextsFit E limit w texts) :=
  TextsFit.decide E limit w texts

section

variable (sqlx : Sqlx D S) (limit : Nat)

/-- `validate_sql` and `bind_query` let the request through. -/
def SqlRequest.accepted (request : SqlRequest) : Bool :=
  (validateSql request.sql).isOk && (bindQuery sqlx.toJson request.params).isOk

/-- No statement of the batch that can be run commits the transaction, or is run outside of
one.  What can be run ends with the first statement of the request that is refused, with the
first error that the handler sees, and with the first row that it cannot decode.  Where the
row limit cuts a text, any number of the statements behind the cut may have been run. -/
def HeldBatch (w : World D S) : List SqlRequest → Prop
  | [] => True
  | statement :: rest => statement.accepted sqlx = true →
    HeldText sqlx.engine writerId w (statement.compiled sqlx) ∧
      ∀ n ≤ (statement.compiled sqlx).length,
        CanLeave sqlx.engine writerId SqliteRow.decodable limit w (statement.compiled sqlx) n →
          HeldBatch (execAll sqlx.engine writerId w ((statement.compiled sqlx).take n)) rest

instance HeldBatch.decide (w : World D S) :
    (statements : List SqlRequest) → Decidable (HeldBatch sqlx limit w statements)
  | [] => isTrue trivial
  | statement :: rest =>
    have := fun n => HeldBatch.decide
      (execAll sqlx.engine writerId w ((statement.compiled sqlx).take n)) rest
    inferInstanceAs (Decidable (_ → _ ∧ ∀ n ≤ _, _ → _))

/-- The loop of a batch takes `limit` rows and breaks at the next one. -/
theorem batchBody_rowLimit :
    RowLimit (batchBody limit) limit SqliteRow.decodable
      fun result => result.rows.rows.length where
  effect acc effect := ⟨_, rfl, rfl⟩
  full acc row hfull := by
    simp [batchBody, pushRow, hfull]
  row acc row hroom := by
    cases hvalues : rowValues row with
    | ok values =>
      refine Or.inl ⟨by simp [SqliteRow.decodable, hvalues, Except.isOk, Except.toBool], ?_⟩
      simp [batchBody, pushRow, hroom, hvalues]
    | error error => exact Or.inr (by simp [batchBody, pushRow, hroom, hvalues])

/-! ## One statement of the request -/

/-- A statement of the request is refused, or it is the loop over its text. -/
theorem batchStatement_cases (ahead : Nat → Nat) (patience : Nat) (w : World D S)
    (statement : SqlRequest) :
    (∃ error, statement.accepted sqlx = false ∧
      batchStatement sqlx limit ahead patience w statement = ⟨w, patience, .failed error⟩) ∨
    (statement.accepted sqlx = true ∧
      batchStatement sqlx limit ahead patience w statement =
        driveAhead (batchBody limit) databaseError ahead patience w
          ⟨0, 0, .empty statement.format⟩
          (stream sqlx.engine writerId w (statement.compiled sqlx))) := by
  unfold batchStatement SqlRequest.accepted
  cases hvalid : validateSql statement.sql with
  | error error => exact Or.inl ⟨error, rfl, rfl⟩
  | ok _ =>
    cases hbind : bindQuery sqlx.toJson statement.params with
    | error error => exact Or.inl ⟨error, rfl, rfl⟩
    | ok arguments =>
      rw [SqlRequest.compiled_eq sqlx hvalid hbind]
      exact Or.inr ⟨rfl, rfl⟩

/-- A statement of the request that ends well is the loop over its text. -/
theorem batchStatement_run {ahead : Nat → Nat} {w : World D S} {statement : SqlRequest}
    {patience : Nat} {result : BatchStatementResult}
    (hdone : (batchStatement sqlx limit ahead patience w statement).outcome = .done result) :
    statement.accepted sqlx = true ∧
      batchStatement sqlx limit ahead patience w statement =
        driveAhead (batchBody limit) databaseError ahead patience w
          ⟨0, 0, .empty statement.format⟩
          (stream sqlx.engine writerId w (statement.compiled sqlx)) := by
  rcases batchStatement_cases sqlx limit ahead patience w statement with ⟨error, _, heq⟩ | h
  · rw [heq] at hdone
    simp at hdone
  · exact h

/-- The loop that ends well has run every text, if they fit, and has one result for each
statement of the request, in order. -/
theorem batchStatements_world {ahead : Nat → Nat} (statements : List SqlRequest) {w : World D S}
    {patience : Nat} {results results' : List BatchStatementResult}
    (hdone : (batchStatements sqlx limit ahead patience w results statements).outcome =
      .done results') :
    (TextsFit sqlx.engine limit w (statements.map (SqlRequest.compiled sqlx)) →
      (batchStatements sqlx limit ahead patience w results statements).world =
          execAll sqlx.engine writerId w (statements.map (SqlRequest.compiled sqlx)).flatten ∧
        ∀ I : World D S → Prop, I w →
          (∀ w, I w → ∀ statement ∈ statements, ∀ s ∈ statement.compiled sqlx,
            (exec sqlx.engine writerId w s).status = .ok () ∨
              (exec sqlx.engine writerId w s).rows ≠ [] →
            I (exec sqlx.engine writerId w s).world) →
          I (batchStatements sqlx limit ahead patience w results statements).world) ∧
    ∃ produced, results' = results ++ produced ∧
      List.Forall₂ (fun statement result => ∃ patience w,
        (batchStatement sqlx limit ahead patience w statement).outcome = .done result)
        statements produced := by
  induction statements generalizing w patience results with
  | nil =>
    obtain rfl := Outcome.done.inj hdone
    exact ⟨fun _ => ⟨rfl, fun _ hw _ => hw⟩, [], (List.append_nil _).symm, .nil⟩
  | cons statement rest ih =>
    simp only [batchStatements] at hdone ⊢
    cases hstatement : (batchStatement sqlx limit ahead patience w statement).outcome with
    | done result =>
      simp only [hstatement] at hdone ⊢
      obtain ⟨hworld, produced, rfl, hall⟩ := ih hdone
      refine ⟨fun ⟨hfit, hrest⟩ => ?_, result :: produced, by simp, .cons ⟨_, _, hstatement⟩ hall⟩
      obtain ⟨_, heq⟩ := batchStatement_run sqlx limit hstatement
      have hran := hstatement
      rw [heq] at hran
      have hsize : (QueryResponse.empty statement.format).rows.length +
          (ranRows sqlx.engine writerId w (statement.compiled sqlx).dropLast).length ≤ limit :=
        Nat.le_trans (Nat.le_of_eq (Nat.zero_add _)) hfit
      obtain ⟨hfirst, hpasses⟩ := drive_stream (batchBody_rowLimit limit)
        ⟨0, 0, .empty statement.format⟩ hsize hran
      rw [← heq] at hfirst
      rw [← hfirst] at hrest
      obtain ⟨hend, hkeeps⟩ := hworld hrest
      refine ⟨?_, fun I hw hstep => hkeeps I ?_ ?_⟩
      · rw [hend, hfirst, List.map_cons, List.flatten_cons, execAll_append]
      · rw [hfirst]
        exact execAll_passes hw hpasses fun w hw s hs =>
          hstep w hw statement List.mem_cons_self s hs
      · exact fun w hw statement hmem => hstep w hw statement (List.mem_cons_of_mem _ hmem)
    | failed error => simp [hstatement] at hdone
    | cancelled => simp [hstatement] at hdone

/-! ## The law -/

/-- The writer after the `begin` of a batch. -/
def begunWriter (w : World D S) : World D S := (Driver.begin SqliteRow sqlx.engine writerId w).1

/-- The writer after the `commit` of a batch. -/
def committedWriter (w : World D S) : World D S :=
  (Driver.commit SqliteRow sqlx.engine writerId w).1

/-- The transaction of a batch is not inside another one that the commit would leave open: it
is a `BEGIN`, or the outermost savepoint, and no text of the batch touches that. -/
def OwnTransaction (w : World D S) (statements : List SqlRequest) : Prop :=
  w.conn.depth = 0 ∨ w.conn.transaction = none ∧
    ∀ statement ∈ statements, ∀ s ∈ statement.compiled sqlx,
      s.concerns (savepointName w.conn.depth) = false

/-- A commit that succeeds ends a transaction which is the batch's own: what the statements of
the batch keep, holds before it. -/
theorem OwnTransaction.commit {w w' : World D S} {statements : List SqlRequest}
    (hown : OwnTransaction sqlx w statements)
    (hbegin : (Driver.begin SqliteRow sqlx.engine writerId w).2 = .ok ())
    (hkeeps : ∀ I : World D S → Prop, I (begunWriter sqlx w) →
      (∀ w, I w → ∀ statement ∈ statements, ∀ s ∈ statement.compiled sqlx,
        (exec sqlx.engine writerId w s).status = .ok () ∨
          (exec sqlx.engine writerId w s).rows ≠ [] →
        I (exec sqlx.engine writerId w s).world) → I w')
    (hcommit : (Driver.commit SqliteRow sqlx.engine writerId w').2 = .ok ()) :
    (committedWriter sqlx w').conn.transaction = none := by
  have hdepth : w'.conn.depth = w.conn.depth + 1 :=
    hkeeps (fun w' => w'.conn.depth = w.conn.depth + 1)
      ((Driver.begin_inside SqliteRow sqlx.engine writerId).2 hbegin).2
      fun w hw _ _ s _ _ => (exec_depth sqlx.engine writerId s).trans hw
  cases hw : w.conn.depth with
  | zero =>
    rw [hw] at hdepth
    exact (Driver.commit_first SqliteRow sqlx.engine writerId hdepth hcommit).1
  | succ depth =>
    -- the transaction is the savepoint of the count, in autocommit
    rw [OwnTransaction, hw] at hown
    rw [hw] at hdepth
    rcases hown with hzero | ⟨hnone, htexts⟩
    · simp at hzero
    · refine Driver.commit_outermost SqliteRow sqlx.engine writerId hdepth ?_ hcommit
      refine hkeeps (Driver.Outermost (savepointName (depth + 1))) ?_ ?_
      · exact Driver.begin_outermost SqliteRow sqlx.engine writerId hw hnone
      · exact fun w hw statement hmem s hs hends =>
          Driver.exec_outermost sqlx.engine writerId hw (htexts statement hmem s hs) hends

/-- The commit of a batch either succeeds or leaves the contents of the file. -/
theorem commitBatch_cases (results : List BatchStatementResult) (w : World D S) :
    ((Driver.commit SqliteRow sqlx.engine writerId w).2 = .ok () ∧
      commitBatch sqlx w results = (committedWriter sqlx w, .done ⟨results⟩)) ∨
    (∃ error, (commitBatch sqlx w results).2 = .failed error) ∧
      (commitBatch sqlx w results).1.file.contents = w.file.contents := by
  unfold commitBatch committedWriter
  rcases hcommit : Driver.commit SqliteRow sqlx.engine writerId w with ⟨w', error | _⟩
  · have hw : w' = w := by
      have := Driver.commit_refused SqliteRow sqlx.engine writerId (w := w) (by rw [hcommit])
      rwa [hcommit] at this
    subst hw
    exact Or.inr ⟨⟨_, rfl⟩, Driver.rollback_contents SqliteRow sqlx.engine writerId⟩
  · exact Or.inl ⟨rfl, rfl⟩

/-- The `begin` of a batch leaves the contents of the file, and it is the one of `sqlx` if the
batch goes on. -/
theorem beginBatch_cases (waits : Nat) (w : World D S) :
    (beginBatch sqlx waits w).1.file.contents = w.file.contents ∧
      ∀ waits', (beginBatch sqlx waits w).2 = .done waits' →
        (Driver.begin SqliteRow sqlx.engine writerId w).2 = .ok () ∧
          (beginBatch sqlx waits w).1 = begunWriter sqlx w := by
  have hbegin := (Driver.begin_inside SqliteRow sqlx.engine writerId (w := w)).1
  unfold beginBatch begunWriter
  generalize Driver.begin SqliteRow sqlx.engine writerId w = began at hbegin ⊢
  obtain ⟨w', error | _⟩ := began
  · match waits with
    | 0 => exact ⟨rfl, fun _ h => by simp at h⟩
    | 1 => exact ⟨congrArg File.contents hbegin, fun _ h => by simp at h⟩
    | _ + 2 => exact ⟨congrArg File.contents hbegin, fun _ h => by simp at h⟩
  · match waits with
    | 0 => exact ⟨rfl, fun _ h => by simp at h⟩
    | 1 =>
      have hrollback := Driver.rollback_contents SqliteRow sqlx.engine writerId (w := w')
      exact ⟨hrollback.trans (congrArg File.contents hbegin), fun _ h => by simp at h⟩
    | _ + 2 => exact ⟨congrArg File.contents hbegin, fun _ _ => ⟨rfl, rfl⟩⟩

/-! ## The writer behind a batch -/

/-- No statement of the request can end the transaction of the batch. -/
def SqlRequest.KeepsTransaction (request : SqlRequest) : Prop :=
  ∀ s ∈ request.compiled sqlx, s.KeepsTransaction

/-- The transaction of a batch that has found `sqlx` in none. -/
structure InBatch (w : World D S) : Prop where
  begun : w.Begun
  depth : w.conn.depth = 1

/-- `sqlx` takes the connection to be in no transaction, and rightly so if `idle`. -/
structure Released (idle : Prop) (w : World D S) : Prop where
  depth : w.conn.depth = 0
  transaction : idle → w.conn.transaction = none

theorem InBatch.exec {w : World D S} (hw : InBatch w) {s : Statement D S SqliteRow}
    (hs : s.KeepsTransaction) : InBatch (exec sqlx.engine writerId w s).world where
  begun := (exec_begun sqlx.engine writerId hw.begun hs.ends).2 (.inr hs.aborts)
  depth := (exec_depth sqlx.engine writerId s).trans hw.depth

/-- What every statement keeps, the loop over the statements keeps. -/
theorem batchStatements_keeps {I : World D S → Prop} {ahead : Nat → Nat}
    (statements : List SqlRequest) {w : World D S} (patience : Nat)
    (results : List BatchStatementResult) (hw : I w)
    (hstep : ∀ w, I w → ∀ statement ∈ statements, ∀ s ∈ statement.compiled sqlx,
      I (exec sqlx.engine writerId w s).world) :
    I (batchStatements sqlx limit ahead patience w results statements).world := by
  induction statements generalizing w patience results with
  | nil => exact hw
  | cons statement rest ih =>
    have hfirst : I (batchStatement sqlx limit ahead patience w statement).world := by
      rcases batchStatement_cases sqlx limit ahead patience w statement with
        ⟨error, _, heq⟩ | ⟨_, heq⟩ <;> rw [heq]
      · exact hw
      · exact driveAhead_world patience _ hw
          (stream_world hw fun w hw s hs => hstep w hw statement List.mem_cons_self s hs)
    simp only [batchStatements]
    split
    · exact ih _ _ hfirst fun w hw statement hmem =>
        hstep w hw statement (List.mem_cons_of_mem _ hmem)
    · exact hfirst
    · exact hfirst

/-- The transaction is rolled back when it is dropped. -/
theorem InBatch.rollback {w : World D S} (hw : InBatch w) (idle : Prop) :
    Released idle (rollbackWriter sqlx w) := by
  obtain ⟨hnone, hdepth⟩ :=
    Driver.rollback_first SqliteRow sqlx.engine writerId hw.begun hw.depth
  exact ⟨hdepth, fun _ => hnone⟩

/-- It is over behind its commit, too: a commit that is refused leaves it to the rollback. -/
theorem InBatch.commit {w : World D S} (hw : InBatch w) (idle : Prop)
    (results : List BatchStatementResult) : Released idle (commitBatch sqlx w results).1 := by
  unfold commitBatch
  have hfirst := Driver.commit_first SqliteRow sqlx.engine writerId hw.depth
  have hrefused : ∀ error, (Driver.commit SqliteRow sqlx.engine writerId w).2 = .error error →
      (Driver.commit SqliteRow sqlx.engine writerId w).1 = w :=
    fun _ => Driver.commit_refused SqliteRow sqlx.engine writerId
  generalize Driver.commit SqliteRow sqlx.engine writerId w = committed at hfirst hrefused ⊢
  obtain ⟨w', error | _⟩ := committed
  · obtain rfl : w' = w := hrefused error rfl
    exact hw.rollback sqlx idle
  · obtain ⟨hnone, hdepth⟩ := hfirst rfl
    exact ⟨hdepth, fun _ => hnone⟩

/-- A batch whose texts leave its transaction to it has ended the transaction, however it
ends. -/
theorem runBatch_released {statements : List SqlRequest} {w : World D S} (patience : Patience)
    (hdepth : w.conn.depth = 0)
    (hkeeps : ∀ statement ∈ statements, statement.KeepsTransaction sqlx) :
    Released (w.conn.transaction = none) (runBatch sqlx limit patience statements w).1 := by
  have hidle : Released (w.conn.transaction = none) w := ⟨hdepth, id⟩
  have hbegun : (Driver.begin SqliteRow sqlx.engine writerId w).2 = .ok () →
      InBatch (Driver.begin SqliteRow sqlx.engine writerId w).1 := by
    intro hok
    rw [(Driver.begin_begun SqliteRow sqlx.engine writerId hdepth hok).2]
    exact ⟨⟨_, rfl, rfl⟩, rfl⟩
  have hrefused : ∀ error, (Driver.begin SqliteRow sqlx.engine writerId w).2 = .error error →
      (Driver.begin SqliteRow sqlx.engine writerId w).1 = w :=
    fun _ => Driver.begin_refused SqliteRow sqlx.engine writerId
  simp only [runBatch, beginBatch]
  generalize Driver.begin SqliteRow sqlx.engine writerId w = began at hbegun hrefused ⊢
  obtain ⟨w', error | _⟩ := began
  · obtain rfl : w' = w := hrefused error rfl
    match patience.waits with
    | 0 | 1 | _ + 2 => exact hidle
  · match patience.waits with
    | 0 => exact hidle
    | 1 => exact (hbegun rfl).rollback sqlx _
    | waits + 2 =>
      have hrun : InBatch
          (batchStatements sqlx limit patience.ahead waits w' [] statements).world :=
        batchStatements_keeps sqlx limit statements waits [] (hbegun rfl)
          fun w hw statement hmem s hs => hw.exec sqlx (hkeeps statement hmem s hs)
      simp only [closeBatch]
      split
      · exact hrun.commit sqlx _ _
      · exact hrun.commit sqlx _ _
      · exact hrun.rollback sqlx _
      · exact hrun.rollback sqlx _

/-! ## Answers and contents -/

/-- A batch that is answered regularly has one result for each statement of the
request.  If the texts fit and the transaction is its own, it has committed every text. -/
theorem runBatch_done {statements : List SqlRequest} {w : World D S} {patience : Patience}
    {response : BatchResponse}
    (hreply : (runBatch sqlx limit patience statements w).2 = .done response) :
    (TextsFit sqlx.engine limit (begunWriter sqlx w)
        (statements.map (SqlRequest.compiled sqlx)) →
      OwnTransaction sqlx w statements →
      (runBatch sqlx limit patience statements w).1 = committedWriter sqlx
          (execAll sqlx.engine writerId (begunWriter sqlx w)
            (statements.map (SqlRequest.compiled sqlx)).flatten) ∧
        (runBatch sqlx limit patience statements w).1.conn.transaction = none) ∧
    List.Forall₂ (fun statement result => ∃ patience' w,
      (batchStatement sqlx limit patience.ahead patience' w statement).outcome = .done result)
      statements response.results := by
  obtain ⟨_, hbegun⟩ := beginBatch_cases sqlx patience.waits w
  simp only [runBatch] at hreply ⊢
  generalize beginBatch sqlx patience.waits w = began at hbegun hreply ⊢
  obtain ⟨w', waits | error | _⟩ := began
  · obtain ⟨hok, rfl⟩ := hbegun waits rfl
    simp only [closeBatch] at hreply ⊢
    split at hreply
    · rename_i results _ hdone _
      obtain ⟨hworld, produced, hproduced, hall⟩ :=
        batchStatements_world sqlx limit statements hdone
      rcases commitBatch_cases sqlx results _ with ⟨hcommitted, hcommit⟩ | ⟨⟨error, herror⟩, _⟩
      · rw [hcommit] at hreply ⊢
        obtain rfl := Outcome.done.inj hreply
        obtain rfl : results = produced := by simpa using hproduced
        refine ⟨fun hfits hown => ?_, hall⟩
        obtain ⟨hend, hkeeps⟩ := hworld hfits
        exact ⟨congrArg (committedWriter sqlx) hend, hown.commit sqlx hok hkeeps hcommitted⟩
      · exact absurd (herror.symm.trans hreply) (by simp)
    · simp at hreply
    · simp at hreply
    · simp at hreply
  · simp at hreply
  · simp at hreply

end

end Tinkiva.Api
