import Tinkiva.Lib.Sqlite.Text

/-!
# Connections beside each other

What the statements of one connection do to the others, which share the file and nothing
else.

* A transaction of a `BEGIN` leaves the contents and the version of the file until it ends
  (`exec_begun_alike`); what it changes is the write lock.
* A connection that refuses writes leaves the file as it is, and it does not see who holds
  the write lock: files that are `Alike` are the same to it (`exec_onFile`,
  `stream_onFile`).
* Nobody takes the write lock for another connection (`exec_lock`).
-/

namespace Sqlite

open LazyStream

variable {D S R F : Type}

/-- Files with the same contents in the same version.  The write lock may differ. -/
structure File.Alike (f g : File D) : Prop where
  contents : f.contents = g.contents
  version : f.version = g.version

namespace File.Alike

variable {f g h : File D}

theorem refl (f : File D) : f.Alike f := ⟨rfl, rfl⟩

theorem trans (hfg : f.Alike g) (hgh : g.Alike h) : f.Alike h :=
  ⟨hfg.contents.trans hgh.contents, hfg.version.trans hgh.version⟩

end File.Alike

/-- The connection, on another file. -/
def World.onFile (w : World D S) (file : File D) : World D S := { w with file := file }

section

variable (E : Engine D S F) (id : Nat) {w : World D S}

/-! ## The file during a transaction -/

/-- Until it is ended, a transaction of a `BEGIN` changes only the lock of the file. -/
theorem exec_begun_alike (hw : w.Begun) {s : Statement D S R} (hs : s.endsTransaction = false) :
    (exec E id w s).world.file.Alike w.file := by
  refine ⟨(exec_begun E id hw hs).1, ?_⟩
  obtain ⟨t, ht, hbegun⟩ := hw
  have hbranch := exec_branch E id (w := w) s
  generalize exec E id w s = result at hbranch ⊢
  cases hbranch with
  | writeThrough hnone =>
    rw [ht] at hnone
    simp at hnone
  | commit | rollback => simp [Statement.endsTransaction] at hs
  | releaseOutermost ht' hrest hother =>
    obtain rfl := Option.some.inj (ht.symm.trans ht')
    rw [hbegun] at hother
    simp at hother
  | writeWithin ht' =>
    simp only [writeWithin]
    split
    · rfl
    · split <;> rfl
  | _ => rfl

/-- Nobody takes the lock for another connection. -/
theorem exec_lock (s : Statement D S R) :
    (exec E id w s).world.file.lock = w.file.lock ∨ (exec E id w s).world.file.lock = none ∨
      (exec E id w s).world.file.lock = some id := by
  have hunlock (file : File D) (h : file.lock = w.file.lock) :
      (file.unlock id).lock = w.file.lock ∨ (file.unlock id).lock = none ∨
        (file.unlock id).lock = some id := by
    simp only [File.unlock]
    split
    · exact .inr (.inl rfl)
    · exact .inl h
  have hbranch := exec_branch E id (w := w) s
  generalize exec E id w s = result at hbranch ⊢
  cases hbranch with
  | beginImmediate => exact .inr (.inr rfl)
  | commit ht hcommit | releaseOutermost ht _ _ hcommit =>
    cases hcommit with
    | unwritten => exact hunlock w.file rfl
    | deferred => exact .inl rfl
    | @written view => exact hunlock (w.file.publish view.current) rfl
  | rollback => exact hunlock w.file rfl
  | writeThrough =>
    simp only [writeThrough]
    split
    · split <;> exact .inl rfl
    · exact .inl rfl
    · exact .inl rfl
    · split <;> exact .inl rfl
  | writeWithin =>
    simp only [writeWithin]
    split
    · exact .inl rfl
    · split
      · exact .inr (.inr rfl)
      · exact .inr (.inr rfl)
      · exact .inr (.inr rfl)
      · exact .inr (.inl (by simp [World.refuse, World.abandon, File.unlock]))
  | _ => exact .inl rfl

/-! ## Connections that refuse writes -/

/-- The end of a statement, on another file. -/
def Result.onFile (result : Result D S R) (file : File D) : Result D S R :=
  { result with world := result.world.onFile file }

theorem World.ReadOnly.onFile (hw : w.ReadOnly) (file : File D) : (w.onFile file).ReadOnly :=
  ⟨hw.queryOnly, hw.unwritten.view, hw.unwritten.saved⟩

theorem unlock_eq {file : File D} (h : file.lock ≠ some id) : file.unlock id = file := by
  rw [File.unlock, if_neg h]

/-- The end of a transaction that has not written is on any file. -/
theorem commit_onFile (hw : w.ReadOnly) {file : File D} (hlock : w.file.lock ≠ some id)
    (hlock' : file.lock ≠ some id) {t : Transaction D} (ht : w.conn.transaction = some t) :
    (commitTransaction E id (w.onFile file) t : Result D S R) =
        (commitTransaction E id w t).onFile file ∧
      (commitTransaction E id w t : Result D S R).world.file = w.file := by
  have hhere := hw.unwritten.commit E id ht (commitTransaction_branch E id (R := R) t)
  have hthere := (hw.onFile file).unwritten.commit E id ht
    (commitTransaction_branch E id (R := R) t)
  rw [hhere, hthere]
  refine ⟨?_, unlock_eq id hlock⟩
  simp only [World.ok, Result.onFile, World.abandon, World.onFile, unlock_eq id hlock']
  rfl

/-- A connection that refuses writes leaves the file as it is, and does the same on a file
that differs in the lock. -/
theorem exec_onFile (hw : w.ReadOnly) {file : File D} (halike : file.Alike w.file)
    (hlock : w.file.lock ≠ some id) (hlock' : file.lock ≠ some id) (s : Statement D S R) :
    exec E id (w.onFile file) s = (exec E id w s).onFile file ∧
      (exec E id w s).world.file = w.file := by
  have hview (t : Transaction D) : t.viewOf file = t.viewOf w.file := by
    simp only [Transaction.viewOf, halike.contents, halike.version]
  have hunlock := unlock_eq id hlock
  have hunlock' := unlock_eq id hlock'
  have hquery := hw.queryOnly
  cases ht : w.conn.transaction with
  | none =>
    cases s with
    | begin immediate =>
      cases immediate <;> simp [exec, ht, hquery, World.onFile, World.refuse, World.ok,
        Result.onFile, World.setTransaction]
    | read run =>
      simp [exec, ht, World.onFile, Result.onFile, World.setSession, halike.contents]
    | write run => simp [exec, hquery, World.onFile, World.refuse, Result.onFile]
    | _ => simp [exec, ht, World.onFile, World.refuse, World.ok, Result.onFile,
        World.setTransaction]
  | some t =>
    cases s with
    | commit =>
      obtain ⟨heq, hfile⟩ := commit_onFile E id hw hlock hlock' ht (R := R)
      simp only [exec, ht, World.onFile] at heq ⊢
      exact ⟨heq, hfile⟩
    | rollback =>
      simp [exec, ht, World.onFile, World.ok, Result.onFile, World.abandon, World.setTransaction,
        hunlock, hunlock']
    | release name =>
      obtain ⟨heq, hfile⟩ := commit_onFile E id hw hlock hlock' ht (R := R)
      simp only [exec, ht, World.onFile] at heq ⊢
      cases t.savepoints.dropWhile (fun p => p.1 != name) with
      | nil => exact ⟨rfl, rfl⟩
      | cons p rest =>
        simp only
        split
        · exact ⟨heq, hfile⟩
        · exact ⟨rfl, rfl⟩
    | rollbackTo name =>
      simp only [exec, ht, World.onFile]
      cases t.savepoints.dropWhile (fun p => p.1 != name) with
      | nil => exact ⟨rfl, rfl⟩
      | cons p rest => exact ⟨rfl, rfl⟩
    | read run =>
      simp [exec, ht, World.onFile, Result.onFile, World.setSession, World.setTransaction, hview]
    | write run => simp [exec, hquery, World.onFile, World.refuse, Result.onFile]
    | _ => simp [exec, ht, World.onFile, World.refuse, World.ok, Result.onFile,
        World.setTransaction]

/-- A text on a connection that refuses writes, beside others on the file. -/
theorem stream_onFile {file : File D} {statements : List (Statement D S R)} (hw : w.ReadOnly)
    (halike : file.Alike w.file) (hlock : w.file.lock ≠ some id) (hlock' : file.lock ≠ some id)
    (hkeeps : ∀ s ∈ statements, s.liftsQueryOnly = false) :
    stream E id (w.onFile file) statements =
        (stream E id w statements).map (fun pull => (pull.1.onFile file, pull.2)) ∧
      ∀ pull ∈ stream E id w statements, pull.1.file = w.file := by
  induction statements generalizing w with
  | nil => exact ⟨rfl, fun pull hpull => absurd hpull List.not_mem_nil⟩
  | cons s rest ih =>
    obtain ⟨hexec, hfile⟩ := exec_onFile E id hw halike hlock hlock' s
    have hreads := (exec_readOnly E id hw (hkeeps s List.mem_cons_self)).2
    obtain ⟨hrest, hfiles⟩ := ih hreads (hfile ▸ halike) (hfile ▸ hlock)
      fun s hs => hkeeps s (List.mem_cons_of_mem _ hs)
    simp only [stream, hexec, Result.onFile]
    constructor
    · rw [List.map_append, List.map_map]
      congr 1
      cases (exec E id w s).status with
      | ok _ => exact congrArg _ hrest
      | error error => rfl
    · intro pull hpull
      rcases List.mem_append.mp hpull with hrow | hpull
      · obtain ⟨row, _, rfl⟩ := List.mem_map.mp hrow
        exact hfile
      · split at hpull
        · rcases List.mem_cons.mp hpull with rfl | hpull
          · exact hfile
          · exact (hfiles pull hpull).trans hfile
        · rw [List.mem_singleton.mp hpull]
          exact hfile

end

end Sqlite
