import Mathlib.Data.List.Basic

/-!
# Connections and transactions of an SQLite database

One database file in WAL mode and the connections to it.  What a single data
statement computes is a function that the statement carries; this file is about
when its result becomes part of the file.

* Outside a transaction a statement commits by itself.  `BEGIN` and an
  outermost `SAVEPOINT` start a transaction, `COMMIT`, `ROLLBACK` and the
  `RELEASE` of the outermost savepoint end it.
* A transaction works on a snapshot of the file, which it takes at its first
  access, and only one connection at a time may hold the write lock.  A snapshot
  that is not the latest cannot be written to.
* A failed statement is undone, keeps what it has done, or rolls back the whole
  transaction, as its conflict clause says.  A `COMMIT` whose deferred constraints
  fail leaves the transaction open.
* With `query_only` on, a statement that writes is refused.
* A data statement sees whether it is run inside a transaction.  There are settings that
  only change outside of one.

`D` is the contents of the database, `S` is whatever else a connection keeps
between statements, `R` is a row, and `F` is what a connection reports of a
statement that has ended.
-/

namespace Sqlite

/-- Why SQLite refuses or fails a statement.  `aborted` is a failure that has rolled the
transaction back. -/
inductive Error where
  | busy
  | busySnapshot
  | readOnly
  | noTransaction
  | withinTransaction
  | noSuchSavepoint (name : String)
  | failed (message : String)
  | aborted (message : String)
  deriving DecidableEq, Repr

/-- What a failed write leaves: nothing, what it has done so far, or not even the
transaction. -/
inductive Failure (D : Type) where
  | undo (message : String)
  | keep (message : String) (contents : D)
  | rollback (message : String)

/-- An SQL statement with its parameters bound.  A `read` may fail after some
rows.  A `write` does all its changes before its first row.  Both are given whether the
connection is in a transaction. -/
inductive Statement (D S R : Type) where
  | begin (immediate : Bool)
  | commit
  | rollback
  | savepoint (name : String)
  | release (name : String)
  | rollbackTo (name : String)
  | queryOnly (on : Bool)
  | read (run : Bool → S → D → S × List R × Option String)
  | write (run : Bool → S → D → S × Except (Failure D) (List R × D))
  | invalid (message : String)

/-- What a transaction sees: the version of the file that it started from, the
contents then and now, and whether it has written. -/
structure View (D : Type) where
  version : Nat
  base : D
  current : D
  wrote : Bool

/-- An open transaction.  `begun` tells a `BEGIN` from an outermost `SAVEPOINT`.  A
savepoint keeps the contents at that point, if there was a view. -/
structure Transaction (D : Type) where
  begun : Bool
  view : Option (View D)
  savepoints : List (String × Option D)

/-- A connection.  `depth` is how many transactions its driver has begun on it, by the count of
the driver: no statement changes it. -/
structure Connection (D S : Type) where
  session : S
  queryOnly : Bool
  transaction : Option (Transaction D)
  depth : Nat

/-- The file: its committed contents, how often they have been committed, and the
connection that holds the write lock. -/
structure File (D : Type) where
  contents : D
  version : Nat
  lock : Option Nat

/-- The file as one connection works on it. -/
structure World (D S : Type) where
  file : File D
  conn : Connection D S

/-- What is the same for all connections: the check of the deferred constraints at
a commit, and what a connection reports of a statement that has ended. -/
structure Engine (D S F : Type) where
  deferred : D → Option String
  effect : S → F

/-- The end of a statement: its rows come before its error. -/
structure Result (D S R : Type) where
  world : World D S
  rows : List R
  status : Except Error Unit

variable {D S R F : Type}

namespace File

/-- Another connection holds the write lock. -/
def lockedFor (file : File D) (id : Nat) : Bool := file.lock.any (· != id)

def unlock (file : File D) (id : Nat) : File D :=
  { file with lock := if file.lock = some id then none else file.lock }

/-- New contents are committed. -/
def publish (file : File D) (contents : D) : File D :=
  { file with contents := contents, version := file.version + 1 }

@[simp] theorem contents_unlock (file : File D) (id : Nat) :
    (file.unlock id).contents = file.contents := rfl

end File

/-- The view of the transaction, taken now if it has none yet. -/
def Transaction.viewOf (t : Transaction D) (file : File D) : View D :=
  t.view.getD ⟨file.version, file.contents, file.contents, false⟩

namespace World

def setTransaction (w : World D S) (t : Option (Transaction D)) : World D S :=
  { w with conn := { w.conn with transaction := t } }

def setSession (w : World D S) (session : S) : World D S :=
  { w with conn := { w.conn with session := session } }

/-- The transaction is dropped and the lock given back. -/
def abandon (w : World D S) (id : Nat) : World D S :=
  { w.setTransaction none with file := w.file.unlock id }

def ok (w : World D S) : Result D S R := ⟨w, [], .ok ()⟩

def refuse (w : World D S) (error : Error) : Result D S R := ⟨w, [], .error error⟩

end World

/-! ## One statement -/

section Exec

variable (E : Engine D S F) (id : Nat) (w : World D S)

/-- The end of a transaction by `COMMIT` or by the `RELEASE` of its outermost
savepoint. -/
def commitTransaction (t : Transaction D) : Result D S R :=
  match t.view with
  | none => (w.abandon id).ok
  | some view =>
    if view.wrote then
      match E.deferred view.current with
      | some message => w.refuse (.failed message)
      | none => World.ok { w.abandon id with file := (w.file.publish view.current).unlock id }
    else (w.abandon id).ok

/-- A write outside a transaction. -/
def writeThrough (run : Bool → S → D → S × Except (Failure D) (List R × D)) : Result D S R :=
  let (session, outcome) := run false w.conn.session w.file.contents
  let w := w.setSession session
  match outcome with
  | .ok (rows, contents) =>
    match E.deferred contents with
    | some message => ⟨w, rows, .error (.failed message)⟩
    | none => ⟨{ w with file := w.file.publish contents }, rows, .ok ()⟩
  | .error (.undo message) | .error (.rollback message) => w.refuse (.failed message)
  | .error (.keep message contents) =>
    match E.deferred contents with
    | some _ => w.refuse (.failed message)
    | none => World.refuse { w with file := w.file.publish contents } (.failed message)

/-- A write inside a transaction, which takes the write lock. -/
def writeWithin (t : Transaction D) (run : Bool → S → D → S × Except (Failure D) (List R × D)) :
    Result D S R :=
  let view := t.viewOf w.file
  if w.file.lock ≠ some id ∧ view.version ≠ w.file.version then
    (w.setTransaction (some { t with view := some view })).refuse .busySnapshot
  else
    let (session, outcome) := run true w.conn.session view.current
    let w := { w.setSession session with file := { w.file with lock := some id } }
    match outcome with
    | .ok (rows, contents) =>
      ⟨w.setTransaction
        (some { t with view := some { view with current := contents, wrote := true } }),
        rows, .ok ()⟩
    | .error (.undo message) =>
      (w.setTransaction (some { t with view := some view })).refuse (.failed message)
    | .error (.keep message contents) =>
      (w.setTransaction
        (some { t with view := some { view with current := contents, wrote := true } })).refuse
          (.failed message)
    | .error (.rollback message) => (w.abandon id).refuse (.aborted message)

/-- Runs one statement on connection `id`. -/
def exec : Statement D S R → Result D S R
  | .begin immediate =>
    match w.conn.transaction with
    | some _ => w.refuse .withinTransaction
    | none =>
      if immediate then
        if w.conn.queryOnly then w.refuse .readOnly
        else if w.file.lockedFor id then w.refuse .busy
        else World.ok
          { w.setTransaction
              (some ⟨true, some ⟨w.file.version, w.file.contents, w.file.contents, false⟩, []⟩) with
            file := { w.file with lock := some id } }
      else (w.setTransaction (some ⟨true, none, []⟩)).ok
  | .commit =>
    match w.conn.transaction with
    | none => w.refuse .noTransaction
    | some t => commitTransaction E id w t
  | .rollback =>
    match w.conn.transaction with
    | none => w.refuse .noTransaction
    | some _ => (w.abandon id).ok
  | .savepoint name =>
    match w.conn.transaction with
    | none => (w.setTransaction (some ⟨false, none, [(name, none)]⟩)).ok
    | some t =>
      (w.setTransaction (some
        { t with savepoints := (name, t.view.map View.current) :: t.savepoints })).ok
  | .release name =>
    match w.conn.transaction with
    | none => w.refuse (.noSuchSavepoint name)
    | some t =>
      match t.savepoints.dropWhile (fun p => p.1 != name) with
      | [] => w.refuse (.noSuchSavepoint name)
      | _ :: rest =>
        if rest.isEmpty && !t.begun then commitTransaction E id w t
        else (w.setTransaction (some { t with savepoints := rest })).ok
  | .rollbackTo name =>
    match w.conn.transaction with
    | none => w.refuse (.noSuchSavepoint name)
    | some t =>
      match t.savepoints.dropWhile (fun p => p.1 != name) with
      | [] => w.refuse (.noSuchSavepoint name)
      | (_, saved) :: rest =>
        (w.setTransaction (some
          { t with
            view := t.view.map fun view => { view with current := saved.getD view.base }
            savepoints := (name, saved) :: rest })).ok
  | .queryOnly on => World.ok { w with conn := { w.conn with queryOnly := on } }
  | .read run =>
    match w.conn.transaction with
    | none =>
      let (session, rows, error) := run false w.conn.session w.file.contents
      ⟨w.setSession session, rows, error.elim (.ok ()) fun message => .error (.failed message)⟩
    | some t =>
      let view := t.viewOf w.file
      let (session, rows, error) := run true w.conn.session view.current
      ⟨(w.setSession session).setTransaction (some { t with view := some view }), rows,
        error.elim (.ok ()) fun message => .error (.failed message)⟩
  | .write run =>
    if w.conn.queryOnly then w.refuse .readOnly
    else if w.file.lockedFor id then w.refuse .busy
    else
      match w.conn.transaction with
      | none => writeThrough E w run
      | some t => writeWithin id w t run
  | .invalid message => w.refuse (.failed message)

end Exec

/-! ## Kinds of statements -/

namespace Statement

/-- `COMMIT` and `ROLLBACK`. -/
def endsTransaction : Statement D S R → Bool
  | .commit | .rollback => true
  | _ => false

/-- A write whose failure may roll the transaction back. -/
def Aborts (s : Statement D S R) : Prop :=
  ∃ run, s = .write run ∧
    ∃ within session contents message, (run within session contents).2 = .error (.rollback message)

/-- A statement that cannot end the transaction of a `BEGIN` in which it is run. -/
structure KeepsTransaction (s : Statement D S R) : Prop where
  ends : s.endsTransaction = false
  aborts : ¬ s.Aborts

/-- `COMMIT`, and the `RELEASE` of a savepoint, which commits if it is the outermost. -/
def commits : Statement D S R → Bool
  | .commit | .release _ => true
  | _ => false

/-- `COMMIT`, `ROLLBACK`, and what opens or releases a savepoint `name`. -/
def concerns (name : String) : Statement D S R → Bool
  | .commit | .rollback => true
  | .savepoint other | .release other => other == name
  | _ => false

/-- `PRAGMA query_only = OFF`. -/
def liftsQueryOnly : Statement D S R → Bool
  | .queryOnly on => !on
  | _ => false

def writes : Statement D S R → Bool
  | .write _ => true
  | _ => false

end Statement

/-! ## What a statement does to the file and to the connection -/

section Inversion

variable (E : Engine D S F) (id : Nat) {w : World D S}

/-- The commit of the transaction `t`. -/
inductive CommitBranch (w : World D S) (t : Transaction D) : Result D S R → Prop
  | unwritten (h : ∀ view, t.view = some view → view.wrote = false) :
    CommitBranch w t (w.abandon id).ok
  | deferred {view : View D} {message : String} (hview : t.view = some view)
      (hwrote : view.wrote = true) (h : E.deferred view.current = some message) :
    CommitBranch w t (w.refuse (.failed message))
  | written {view : View D} (hview : t.view = some view) (hwrote : view.wrote = true)
      (h : E.deferred view.current = none) :
    CommitBranch w t (World.ok
      { w.abandon id with file := (w.file.publish view.current).unlock id })

theorem commitTransaction_branch (t : Transaction D) :
    CommitBranch E id w t (commitTransaction E id w t : Result D S R) := by
  unfold commitTransaction
  split
  · rename_i hview
    exact .unwritten (by simp [hview])
  · rename_i view hview
    split
    · rename_i hwrote
      split
      · rename_i message hdeferred
        exact .deferred hview hwrote hdeferred
      · rename_i hdeferred
        exact .written hview hwrote hdeferred
    · rename_i hwrote
      refine .unwritten fun view' hview' => ?_
      obtain rfl := Option.some.inj (hview.symm.trans hview')
      exact Bool.eq_false_iff.mpr hwrote

/-- What a statement does, one constructor for each branch of `exec`.  The branches that
refuse the statement leave everything as it is and are one constructor. -/
inductive ExecBranch (w : World D S) : Statement D S R → Result D S R → Prop
  | refused (s : Statement D S R) {error : Error} :
    ExecBranch w s (w.refuse error)
  | begin (ht : w.conn.transaction = none) :
    ExecBranch w (.begin false) (w.setTransaction (some ⟨true, none, []⟩)).ok
  | beginImmediate (ht : w.conn.transaction = none) (hlock : w.file.lockedFor id = false) :
    ExecBranch w (.begin true) (World.ok
      { w.setTransaction
          (some ⟨true, some ⟨w.file.version, w.file.contents, w.file.contents, false⟩, []⟩) with
        file := { w.file with lock := some id } })
  | commit {t : Transaction D} {result : Result D S R} (ht : w.conn.transaction = some t)
      (h : CommitBranch E id w t result) :
    ExecBranch w .commit result
  | rollback {t : Transaction D} (ht : w.conn.transaction = some t) :
    ExecBranch w .rollback (w.abandon id).ok
  | savepointOutermost {name : String} (ht : w.conn.transaction = none) :
    ExecBranch w (.savepoint name) (w.setTransaction (some ⟨false, none, [(name, none)]⟩)).ok
  | savepoint {name : String} {t : Transaction D} (ht : w.conn.transaction = some t) :
    ExecBranch w (.savepoint name) (w.setTransaction (some
      { t with savepoints := (name, t.view.map View.current) :: t.savepoints })).ok
  | releaseOutermost {name : String} {t : Transaction D} {p : String × Option D}
      {result : Result D S R} (ht : w.conn.transaction = some t)
      (hrest : t.savepoints.dropWhile (fun p => p.1 != name) = [p]) (hbegun : t.begun = false)
      (h : CommitBranch E id w t result) :
    ExecBranch w (.release name) result
  | release {name : String} {t : Transaction D} {p : String × Option D}
      {rest : List (String × Option D)} (ht : w.conn.transaction = some t)
      (hrest : t.savepoints.dropWhile (fun p => p.1 != name) = p :: rest)
      (hinner : (rest.isEmpty && !t.begun) = false) :
    ExecBranch w (.release name) (w.setTransaction (some { t with savepoints := rest })).ok
  | rollbackTo {name : String} {t : Transaction D} {saved : Option D}
      {rest : List (String × Option D)} (ht : w.conn.transaction = some t)
      (hrest : t.savepoints.dropWhile (fun p => p.1 != name) = (name, saved) :: rest) :
    ExecBranch w (.rollbackTo name) (w.setTransaction (some
      { t with
        view := t.view.map fun view => { view with current := saved.getD view.base }
        savepoints := (name, saved) :: rest })).ok
  | queryOnly (on : Bool) :
    ExecBranch w (.queryOnly on) (World.ok { w with conn := { w.conn with queryOnly := on } })
  | read {run : Bool → S → D → S × List R × Option String} {session : S} {rows : List R}
      {error : Option String} (ht : w.conn.transaction = none)
      (hrun : run false w.conn.session w.file.contents = (session, rows, error)) :
    ExecBranch w (.read run) ⟨w.setSession session, rows,
      error.elim (.ok ()) fun message => .error (.failed message)⟩
  | readWithin {run : Bool → S → D → S × List R × Option String} {t : Transaction D} {session : S}
      {rows : List R} {error : Option String} (ht : w.conn.transaction = some t)
      (hrun : run true w.conn.session (t.viewOf w.file).current = (session, rows, error)) :
    ExecBranch w (.read run)
      ⟨(w.setSession session).setTransaction (some { t with view := some (t.viewOf w.file) }), rows,
        error.elim (.ok ()) fun message => .error (.failed message)⟩
  | writeThrough {run : Bool → S → D → S × Except (Failure D) (List R × D)}
      (ht : w.conn.transaction = none) (hquery : w.conn.queryOnly = false) :
    ExecBranch w (.write run) (writeThrough E w run)
  | writeWithin {run : Bool → S → D → S × Except (Failure D) (List R × D)} {t : Transaction D}
      (ht : w.conn.transaction = some t) (hquery : w.conn.queryOnly = false) :
    ExecBranch w (.write run) (writeWithin id w t run)

theorem exec_branch (s : Statement D S R) : ExecBranch E id w s (exec E id w s) := by
  have hrefused {s : Statement D S R} {error : Error} :
      ExecBranch E id w s (w.refuse error) := .refused s
  cases s with
  | begin immediate =>
    simp only [exec]
    split
    · exact hrefused
    · rename_i ht
      cases immediate with
      | false => exact .begin ht
      | true =>
        simp only [if_true]
        split
        · exact hrefused
        · split
          · exact hrefused
          · rename_i hlock
            exact .beginImmediate ht (Bool.eq_false_iff.mpr hlock)
  | commit =>
    simp only [exec]
    split
    · exact hrefused
    · rename_i t ht
      exact .commit ht (commitTransaction_branch E id t)
  | rollback =>
    simp only [exec]
    split
    · exact hrefused
    · rename_i t ht
      exact .rollback ht
  | savepoint name =>
    simp only [exec]
    split
    · rename_i ht
      exact .savepointOutermost ht
    · rename_i t ht
      exact .savepoint ht
  | release name =>
    simp only [exec]
    split
    · exact hrefused
    · rename_i t ht
      split
      · exact hrefused
      · rename_i p rest hrest
        split
        · rename_i hlast
          obtain ⟨hnil, hbegun⟩ := Bool.and_eq_true_iff.mp hlast
          rw [List.isEmpty_iff.mp hnil] at hrest
          exact .releaseOutermost ht hrest (by simpa using hbegun)
            (commitTransaction_branch E id t)
        · rename_i hlast
          exact .release ht hrest (Bool.eq_false_iff.mpr hlast)
  | rollbackTo name =>
    simp only [exec]
    split
    · exact hrefused
    · rename_i t ht
      split
      · exact hrefused
      · rename_i found saved rest hrest
        have hfound : found = name := by
          have := List.head_dropWhile_not (l := t.savepoints) (fun p => p.1 != name)
            (by rw [hrest]; exact List.cons_ne_nil _ _)
          simpa [hrest] using this
        subst hfound
        exact .rollbackTo ht hrest
  | queryOnly on => exact .queryOnly on
  | read run =>
    simp only [exec]
    split
    · rename_i ht
      exact .read ht rfl
    · rename_i t ht
      exact .readWithin ht rfl
  | write run =>
    simp only [exec]
    split
    · exact hrefused
    · rename_i hquery
      split
      · exact hrefused
      · split
        · rename_i ht
          exact .writeThrough ht (Bool.eq_false_iff.mpr hquery)
        · rename_i t ht
          exact .writeWithin ht (Bool.eq_false_iff.mpr hquery)
  | invalid message => exact hrefused

/-- The connection is in a transaction that a `BEGIN` has started. -/
def World.Begun (w : World D S) : Prop := ∃ t, w.conn.transaction = some t ∧ t.begun = true

/-- A statement takes no part in the count of the driver. -/
theorem CommitBranch.depth {t : Transaction D} {result : Result D S R}
    (h : CommitBranch E id w t result) : result.world.conn.depth = w.conn.depth := by
  cases h <;> rfl

theorem exec_depth (s : Statement D S R) :
    (exec E id w s).world.conn.depth = w.conn.depth := by
  have hbranch := exec_branch E id (w := w) s
  generalize exec E id w s = result at hbranch ⊢
  cases hbranch with
  | commit _ hcommit | releaseOutermost _ _ _ hcommit => exact hcommit.depth
  | writeThrough =>
    simp only [writeThrough]
    split
    · split <;> rfl
    · rfl
    · rfl
    · split <;> rfl
  | writeWithin =>
    simp only [writeWithin]
    split
    · rfl
    · split <;> rfl
  | _ => rfl

theorem writeWithin_contents (t : Transaction D)
    (run : Bool → S → D → S × Except (Failure D) (List R × D)) :
    (writeWithin id w t run).world.file.contents = w.file.contents := by
  simp only [writeWithin]
  split
  · rfl
  · split <;> rfl

/-- Until it is ended, a transaction of a `BEGIN` keeps its changes from the file.  It is
over only after a write that has failed and rolled it back. -/
theorem exec_begun (hw : w.Begun) {s : Statement D S R} (hs : s.endsTransaction = false) :
    (exec E id w s).world.file.contents = w.file.contents ∧
      ((exec E id w s).status = .ok () ∨ ¬ s.Aborts → (exec E id w s).world.Begun) := by
  obtain ⟨t, ht, hbegun⟩ := hw
  have hbranch := exec_branch E id (w := w) s
  generalize exec E id w s = result at hbranch ⊢
  -- The connection is in the transaction `t` and in no other.
  have hsame {t' : Transaction D} (ht' : w.conn.transaction = some t') : t'.begun = true := by
    obtain rfl := Option.some.inj (ht.symm.trans ht')
    exact hbegun
  cases hbranch with
  | refused => exact ⟨rfl, fun _ => ⟨t, ht, hbegun⟩⟩
  | begin hnone | beginImmediate hnone | savepointOutermost hnone | read hnone
  | writeThrough hnone =>
    rw [ht] at hnone
    simp at hnone
  | commit | rollback => simp [Statement.endsTransaction] at hs
  | releaseOutermost ht' hrest hother =>
    rw [hsame ht'] at hother
    simp at hother
  | savepoint ht' | release ht' | rollbackTo ht' | readWithin ht' =>
    have hbegun' := hsame ht'
    exact ⟨rfl, fun _ => ⟨_, rfl, hbegun'⟩⟩
  | queryOnly => exact ⟨rfl, fun _ => ⟨t, ht, hbegun⟩⟩
  | @writeWithin run t' ht' =>
    have hbegun' := hsame ht'
    refine ⟨writeWithin_contents id t' run, ?_⟩
    simp only [writeWithin]
    split
    · exact fun _ => ⟨_, rfl, hbegun'⟩
    · split
      · exact fun _ => ⟨_, rfl, hbegun'⟩
      · exact fun _ => ⟨_, rfl, hbegun'⟩
      · exact fun _ => ⟨_, rfl, hbegun'⟩
      · -- The failure has rolled the transaction back.
        rename_i message hrun
        intro h
        have haborts : (Statement.write run : Statement D S R).Aborts :=
          ⟨run, rfl, true, _, _, message, hrun⟩
        simp [World.refuse, haborts] at h

/-- A `COMMIT` that succeeds leaves no transaction.  One that fails leaves
everything as it is. -/
theorem exec_commit :
    ((exec E id w (.commit : Statement D S R)).status = .ok () ∧
      (exec E id w (.commit : Statement D S R)).world.conn.transaction = none) ∨
    ((∃ error, (exec E id w (.commit : Statement D S R)).status = .error error) ∧
      (exec E id w (.commit : Statement D S R)).world = w) := by
  have hbranch := exec_branch E id (w := w) (.commit : Statement D S R)
  generalize exec E id w (.commit : Statement D S R) = result at hbranch ⊢
  cases hbranch with
  | refused => exact Or.inr ⟨⟨_, rfl⟩, rfl⟩
  | commit ht hcommit =>
    cases hcommit with
    | unwritten | written => exact Or.inl ⟨rfl, rfl⟩
    | deferred => exact Or.inr ⟨⟨_, rfl⟩, rfl⟩

/-- The transaction of the connection, if it is in one, has not written, and `P` holds
of all the contents that it has seen or saved. -/
structure World.Unwritten (P : D → Prop) (w : World D S) : Prop where
  view : ∀ t, w.conn.transaction = some t → ∀ view, t.view = some view →
    view.wrote = false ∧ P view.base ∧ P view.current
  saved : ∀ t, w.conn.transaction = some t → ∀ p ∈ t.savepoints, ∀ contents,
    p.2 = some contents → P contents

namespace World.Unwritten

variable {P : D → Prop} {t : Transaction D}

theorem of_none (hw : w.conn.transaction = none) : w.Unwritten P :=
  ⟨fun t ht => by simp [hw] at ht, fun t ht => by simp [hw] at ht⟩

theorem of_some (ht : w.conn.transaction = some t)
    (hview : ∀ view, t.view = some view → view.wrote = false ∧ P view.base ∧ P view.current)
    (hsaved : ∀ p ∈ t.savepoints, ∀ contents, p.2 = some contents → P contents) :
    w.Unwritten P := by
  constructor <;> intro t' ht' <;> obtain rfl := Option.some.inj (ht.symm.trans ht')
  · exact hview
  · exact hsaved

/-- The view of the transaction is one of the file now, if it had none before. -/
theorem viewOf (hw : w.Unwritten P) (hfile : P w.file.contents)
    (ht : w.conn.transaction = some t) :
    (t.viewOf w.file).wrote = false ∧ P (t.viewOf w.file).base ∧ P (t.viewOf w.file).current := by
  cases hview : t.view with
  | none => simp [Transaction.viewOf, hview, hfile]
  | some view => simpa [Transaction.viewOf, hview] using hw.view t ht view hview

/-- The end of a transaction that has not written leaves the contents of the file. -/
theorem commit (hw : w.Unwritten P) (ht : w.conn.transaction = some t) {result : Result D S R}
    (h : CommitBranch E id w t result) : result = (w.abandon id).ok := by
  cases h with
  | unwritten => rfl
  | deferred hview hwrote | written hview hwrote =>
    rw [(hw.view t ht _ hview).1] at hwrote
    simp at hwrote

end World.Unwritten

/-- A statement that is not a write leaves a transaction without writes as it is, and
the contents of the file too. -/
theorem exec_unwritten {P : D → Prop} (hw : w.Unwritten P) (hfile : P w.file.contents)
    {s : Statement D S R} (hs : s.writes = false) :
    (exec E id w s).world.file.contents = w.file.contents ∧
      (exec E id w s).world.Unwritten P := by
  have hnone : (w.abandon id).Unwritten P := .of_none rfl
  have hbranch := exec_branch E id (w := w) s
  generalize exec E id w s = result at hbranch ⊢
  cases hbranch with
  | refused => exact ⟨rfl, hw⟩
  | begin | savepointOutermost => exact ⟨rfl, .of_some rfl (by simp) (by simp)⟩
  | beginImmediate =>
    refine ⟨rfl, .of_some rfl ?_ (by simp)⟩
    intro view hview
    obtain rfl := Option.some.inj hview
    exact ⟨rfl, hfile, hfile⟩
  | commit ht hcommit | releaseOutermost ht _ _ hcommit =>
    rw [hw.commit E id ht hcommit]
    exact ⟨rfl, hnone⟩
  | rollback => exact ⟨rfl, hnone⟩
  | @savepoint name t ht =>
    refine ⟨rfl, .of_some rfl (hw.view t ht) ?_⟩
    intro p hp contents hcontents
    rcases List.mem_cons.mp hp with rfl | hp
    · obtain ⟨view, hview, rfl⟩ := Option.map_eq_some_iff.mp hcontents
      exact (hw.view t ht view hview).2.2
    · exact hw.saved t ht p hp contents hcontents
  | @release name t p rest ht hrest =>
    have hmem : ∀ p' ∈ p :: rest, p' ∈ t.savepoints :=
      hrest ▸ (List.dropWhile_sublist _).subset
    refine ⟨rfl, .of_some rfl (hw.view t ht) ?_⟩
    intro p' hp'
    exact hw.saved t ht p' (hmem p' (List.mem_cons_of_mem _ hp'))
  | @rollbackTo name t saved rest ht hrest =>
    have hmem : ∀ p ∈ (name, saved) :: rest, p ∈ t.savepoints :=
      hrest ▸ (List.dropWhile_sublist _).subset
    refine ⟨rfl, .of_some rfl ?_ fun p hp => hw.saved t ht p (hmem p hp)⟩
    intro view hview
    obtain ⟨view', hview', rfl⟩ := Option.map_eq_some_iff.mp hview
    obtain ⟨hwrote, hbase, _⟩ := hw.view t ht view' hview'
    refine ⟨hwrote, hbase, ?_⟩
    -- The contents go back to the savepoint, or to the start of the transaction.
    cases saved with
    | none => exact hbase
    | some contents => exact hw.saved t ht _ (hmem _ List.mem_cons_self) contents rfl
  | queryOnly => exact ⟨rfl, hw.view, hw.saved⟩
  | read => exact ⟨rfl, hw.view, hw.saved⟩
  | @readWithin _ t _ _ _ ht =>
    refine ⟨rfl, .of_some rfl ?_ (hw.saved t ht)⟩
    intro view hview
    obtain rfl := Option.some.inj hview
    exact hw.viewOf hfile ht
  | writeThrough | writeWithin => simp [Statement.writes] at hs

theorem CommitBranch.silent {t : Transaction D} {result : Result D S R}
    (h : CommitBranch E id w t result) :
    result.rows = [] ∧ result.world.conn.session = w.conn.session ∧
      result.world.conn.queryOnly = w.conn.queryOnly := by
  cases h <;> exact ⟨rfl, rfl, rfl⟩

/-- `query_only` stays on until it is turned off. -/
theorem exec_queryOnly (hw : w.conn.queryOnly = true) {s : Statement D S R}
    (hs : s.liftsQueryOnly = false) : (exec E id w s).world.conn.queryOnly = true := by
  have hbranch := exec_branch E id (w := w) s
  generalize exec E id w s = result at hbranch ⊢
  cases hbranch with
  | commit _ hcommit | releaseOutermost _ _ _ hcommit => exact hcommit.silent.2.2.trans hw
  | queryOnly on => simpa [World.ok, Statement.liftsQueryOnly] using hs
  | writeThrough _ hquery | writeWithin _ hquery =>
    rw [hw] at hquery
    simp at hquery
  | _ => exact hw

/-- The connection refuses writes, and its transaction has none. -/
structure World.ReadOnly (w : World D S) : Prop where
  queryOnly : w.conn.queryOnly = true
  unwritten : w.Unwritten fun _ => True

/-- A connection that refuses writes goes on refusing them until `query_only` is
turned off, and leaves the contents of the file alone. -/
theorem exec_readOnly (hw : w.ReadOnly) {s : Statement D S R} (hs : s.liftsQueryOnly = false) :
    (exec E id w s).world.file.contents = w.file.contents ∧ (exec E id w s).world.ReadOnly := by
  have hquery := exec_queryOnly E id hw.queryOnly hs
  cases hwrites : s.writes with
  | false =>
    obtain ⟨hfile, hunwritten⟩ := exec_unwritten E id hw.unwritten trivial hwrites
    exact ⟨hfile, hquery, hunwritten⟩
  | true =>
    cases s with
    | write run =>
      simp only [exec, hw.queryOnly, if_true]
      exact ⟨rfl, hw⟩
    | _ => simp [Statement.writes] at hwrites

/-- A connection that refuses writes answers a write with an error. -/
theorem exec_write_readOnly (hw : w.conn.queryOnly = true) {s : Statement D S R}
    (hs : s.writes = true) : (exec E id w s).status = .error .readOnly := by
  cases s with
  | write run => simp only [exec, hw, if_true, World.refuse]
  | _ => simp [Statement.writes] at hs

end Inversion

end Sqlite
