import Tinkiva.Lib.Sqlite.Connection

/-!
# The transactions of a driver

A driver keeps count of the transactions that it has begun on a connection.  It begins the
first one with `BEGIN`, and one inside others with a savepoint whose name has the count.
The count goes down when the commit or the rollback has succeeded, and only then: after a
commit and a rollback that both fail, the driver takes the connection to be in a
transaction that is over.

A rollback of a savepoint goes back to it and leaves it open.

The count is that of the driver, and the transaction is that of the connection.  Whoever
runs `BEGIN`, `COMMIT` or `ROLLBACK` as a statement changes the one without the other.
-/

namespace Sqlite

variable {D S R F : Type}

/-- The savepoint of a transaction that has `depth` others around it. -/
def savepointName (depth : Nat) : String := "_sqlx_savepoint_" ++ toString depth

/-- Begins a transaction that has `depth` others around it. -/
def beginStatement : Nat → Statement D S R
  | 0 => .begin false
  | depth + 1 => .savepoint (savepointName (depth + 1))

def commitStatement : Nat → Statement D S R
  | 0 => .commit
  | depth + 1 => .release (savepointName (depth + 1))

def rollbackStatement : Nat → Statement D S R
  | 0 => .rollback
  | depth + 1 => .rollbackTo (savepointName (depth + 1))

def World.setDepth (w : World D S) (depth : Nat) : World D S :=
  { w with conn := { w.conn with depth := depth } }

namespace Driver

section

variable (R) (E : Engine D S F) (id : Nat) (w : World D S)

/-- Begins a transaction. -/
def begin : World D S × Except Error Unit :=
  let ran := exec E id w (beginStatement w.conn.depth : Statement D S R)
  match ran.status with
  | .ok () => (ran.world.setDepth (w.conn.depth + 1), .ok ())
  | .error error => (ran.world, .error error)

/-- Ends the innermost transaction by the statement for it.  There may be none. -/
def finish (statement : Nat → Statement D S R) : World D S × Except Error Unit :=
  match w.conn.depth with
  | 0 => (w, .ok ())
  | depth + 1 =>
    let ran := exec E id w (statement depth)
    match ran.status with
    | .ok () => (ran.world.setDepth depth, .ok ())
    | .error error => (ran.world, .error error)

def commit : World D S × Except Error Unit :=
  finish R E id w commitStatement

/-- A rollback that fails is not reported. -/
def rollback : World D S :=
  (finish R E id w rollbackStatement).1

end

/-! ## What they do to the connection -/

section

variable (R) (E : Engine D S F) (id : Nat) {w : World D S}

variable {R} in
/-- What the statements keep, and the count has no part in, the end of a transaction keeps. -/
theorem finish_keeps {I : World D S → Prop} (statement : Nat → Statement D S R)
    (hexec : ∀ (w : World D S) (s : Statement D S R), I w → I (exec E id w s).world)
    (hdepth : ∀ (w : World D S) depth, I w → I (w.setDepth depth)) (hw : I w) :
    I (finish R E id w statement).1 := by
  unfold finish
  split
  · exact hw
  · simp only
    split
    · exact hdepth _ _ (hexec _ _ hw)
    · exact hexec _ _ hw

/-- The beginning of a transaction leaves the file alone, and leads into a transaction. -/
theorem begin_inside :
    (begin R E id w).1.file = w.file ∧
      ((begin R E id w).2 = .ok () → (begin R E id w).1.conn.transaction ≠ none ∧
        (begin R E id w).1.conn.depth = w.conn.depth + 1) := by
  unfold begin
  cases hdepth : w.conn.depth with
  | zero => cases ht : w.conn.transaction <;> simp [beginStatement, exec, ht, World.ok,
      World.refuse, World.setTransaction, World.setDepth]
  | succ depth => cases ht : w.conn.transaction <;> simp [beginStatement, exec, ht, World.ok,
      World.setTransaction, World.setDepth]

/-- The first transaction is one of a `BEGIN`, and there is none yet. -/
theorem begin_begun (hdepth : w.conn.depth = 0) (hok : (begin R E id w).2 = .ok ()) :
    w.conn.transaction = none ∧
      (begin R E id w).1 = (w.setTransaction (some ⟨true, none, []⟩)).setDepth 1 := by
  unfold begin at hok ⊢
  cases ht : w.conn.transaction <;>
    simp [beginStatement, exec, hdepth, ht, World.ok, World.refuse] at hok ⊢

theorem begin_refused {error : Error} (hrefused : (begin R E id w).2 = .error error) :
    (begin R E id w).1 = w := by
  unfold begin at hrefused ⊢
  cases hdepth : w.conn.depth with
  | zero => cases ht : w.conn.transaction <;>
      simp [beginStatement, exec, hdepth, ht, World.ok, World.refuse] at hrefused ⊢
  | succ depth => cases ht : w.conn.transaction <;>
      simp [beginStatement, exec, hdepth, ht, World.ok] at hrefused

theorem rollback_contents : (rollback R E id w).file.contents = w.file.contents := by
  unfold rollback finish
  cases w.conn.depth with
  | zero => rfl
  | succ depth =>
    have hexec : (exec E id w (rollbackStatement depth : Statement D S R)).world.file.contents =
        w.file.contents := by
      have hbranch := exec_branch E id (w := w) (rollbackStatement depth : Statement D S R)
      generalize exec E id w (rollbackStatement depth : Statement D S R) = result at hbranch ⊢
      cases depth <;> cases hbranch <;> rfl
    simp only
    split <;> exact hexec

/-- A commit that fails changes nothing. -/
theorem commit_refused {error : Error} (hrefused : (commit R E id w).2 = .error error) :
    (commit R E id w).1 = w := by
  unfold commit finish at hrefused ⊢
  cases hdepth : w.conn.depth with
  | zero => rfl
  | succ depth =>
    simp only [hdepth] at hrefused ⊢
    have hbranch := exec_branch E id (w := w) (commitStatement depth : Statement D S R)
    generalize exec E id w (commitStatement depth : Statement D S R) = result at hbranch hrefused ⊢
    have hcommitted {t : Transaction D} (h : CommitBranch E id w t result)
        (hstatus : result.status ≠ .ok ()) : result.world = w := by
      cases h with
      | unwritten | written => exact absurd rfl hstatus
      | deferred => rfl
    split at hrefused
    · simp at hrefused
    · rename_i hstatus
      simp only
      cases depth with
      | zero =>
        cases hbranch with
        | refused => rfl
        | commit _ hcommit => exact hcommitted hcommit (by rw [hstatus]; simp)
      | succ depth =>
        cases hbranch with
        | refused => rfl
        | releaseOutermost _ _ _ hcommit => exact hcommitted hcommit (by rw [hstatus]; simp)
        | release => simp [World.ok] at hstatus

/-- The end of the first transaction. -/
theorem commit_first (hdepth : w.conn.depth = 1) (hok : (commit R E id w).2 = .ok ()) :
    (commit R E id w).1.conn.transaction = none ∧ (commit R E id w).1.conn.depth = 0 := by
  have hcommit := exec_commit E id (w := w) (R := R)
  simp only [commit, finish, hdepth, commitStatement] at hok ⊢
  rcases hcommit with ⟨hstatus, hnone⟩ | ⟨⟨error, hstatus⟩, _⟩
  · simp only [hstatus]
    exact ⟨hnone, rfl⟩
  · simp [hstatus] at hok

theorem rollback_first (hw : w.Begun) (hdepth : w.conn.depth = 1) :
    (rollback R E id w).conn.transaction = none ∧ (rollback R E id w).conn.depth = 0 := by
  obtain ⟨t, ht, _⟩ := hw
  simp [rollback, finish, hdepth, rollbackStatement, exec, ht, World.ok, World.abandon,
    World.setTransaction, World.setDepth]

/-! ## A transaction that is the outermost savepoint -/

/-- The transaction of the connection is the savepoint `name`, and none inside it has this
name. -/
def Outermost (name : String) (w : World D S) : Prop :=
  ∃ t inner saved, w.conn.transaction = some t ∧ t.begun = false ∧
    t.savepoints = inner ++ [(name, saved)] ∧ ∀ p ∈ inner, p.1 ≠ name

theorem begin_outermost {depth : Nat} (hdepth : w.conn.depth = depth + 1)
    (hw : w.conn.transaction = none) :
    Outermost (savepointName (depth + 1)) (begin R E id w).1 := by
  simp only [begin, hdepth, beginStatement, exec, hw, World.ok]
  exact ⟨_, [], none, rfl, rfl, rfl, fun p hp => absurd hp List.not_mem_nil⟩

/-- The savepoints from the one of another name on are inside the outermost one. -/
theorem dropWhile_inner {name other : String} {inner rest : List (String × Option D)}
    {saved : Option D} {p : String × Option D} (hother : other ≠ name)
    (h : (inner ++ [(name, saved)]).dropWhile (fun p => p.1 != other) = p :: rest) :
    ∃ left, rest = left ++ [(name, saved)] ∧ p :: left <:+ inner := by
  induction inner with
  | nil => simp [Ne.symm hother] at h
  | cons q inner ih =>
    by_cases hq : q.1 = other
    · simp only [List.cons_append, List.dropWhile_cons, hq, bne_self_eq_false] at h
      obtain ⟨rfl, rfl⟩ := List.cons.inj h
      exact ⟨inner, rfl, List.suffix_rfl⟩
    · simp only [List.cons_append, List.dropWhile_cons, bne_iff_ne.mpr hq, if_true] at h
      obtain ⟨left, hleft, hsuffix⟩ := ih h
      exact ⟨left, hleft, hsuffix.trans (List.suffix_cons q inner)⟩

variable {R} in
/-- What ends well or yields a row, and does not name the savepoint, leaves it where it is. -/
theorem exec_outermost {name : String} (hw : Outermost name w) {s : Statement D S R}
    (hs : s.concerns name = false)
    (hok : (exec E id w s).status = .ok () ∨ (exec E id w s).rows ≠ []) :
    Outermost name (exec E id w s).world := by
  obtain ⟨t, inner, saved, ht, hbegun, hpoints, hinner⟩ := hw
  have hbranch := exec_branch E id (w := w) s
  generalize exec E id w s = result at hbranch hok ⊢
  cases hbranch with
  | refused => simp [World.refuse] at hok
  | begin hnone | beginImmediate hnone | savepointOutermost hnone | read hnone
  | writeThrough hnone =>
    rw [ht] at hnone
    simp at hnone
  | commit | rollback => simp [Statement.concerns] at hs
  | @savepoint other t' ht' =>
    obtain rfl := Option.some.inj (ht.symm.trans ht')
    have hother : other ≠ name := by simpa [Statement.concerns] using hs
    refine ⟨_, (other, t.view.map View.current) :: inner, saved, rfl, hbegun, ?_, ?_⟩
    · simp [hpoints]
    · exact List.forall_mem_cons.mpr ⟨hother, hinner⟩
  | @releaseOutermost other t' p _ ht' hrest =>
    obtain rfl := Option.some.inj (ht.symm.trans ht')
    have hother : other ≠ name := by simpa [Statement.concerns] using hs
    rw [hpoints] at hrest
    obtain ⟨left, hleft, _⟩ := dropWhile_inner hother hrest
    simp at hleft
  | @release other t' p rest ht' hrest =>
    obtain rfl := Option.some.inj (ht.symm.trans ht')
    have hother : other ≠ name := by simpa [Statement.concerns] using hs
    rw [hpoints] at hrest
    obtain ⟨left, rfl, hsuffix⟩ := dropWhile_inner hother hrest
    exact ⟨_, left, saved, rfl, hbegun, rfl, fun p hp =>
      hinner p (hsuffix.subset (List.mem_cons_of_mem _ hp))⟩
  | @rollbackTo other t' saved' rest ht' hrest =>
    obtain rfl := Option.some.inj (ht.symm.trans ht')
    rw [hpoints] at hrest
    by_cases hother : other = name
    · subst hother
      have hskip : (inner ++ [(other, saved)]).dropWhile (fun p => p.1 != other) =
          [(other, saved)] := by
        rw [List.dropWhile_append_of_pos fun p hp => by simpa using hinner p hp]
        simp
      rw [hskip] at hrest
      obtain ⟨hsaved, rfl⟩ := List.cons.inj hrest
      exact ⟨_, [], saved', rfl, hbegun, rfl, fun p hp => absurd hp List.not_mem_nil⟩
    · obtain ⟨left, rfl, hsuffix⟩ := dropWhile_inner hother hrest
      exact ⟨_, (other, saved') :: left, saved, rfl, hbegun, rfl, fun p hp =>
        hinner p (hsuffix.subset hp)⟩
  | queryOnly => exact ⟨t, inner, saved, ht, hbegun, hpoints, hinner⟩
  | readWithin ht' =>
    obtain rfl := Option.some.inj (ht.symm.trans ht')
    exact ⟨_, inner, saved, rfl, hbegun, hpoints, hinner⟩
  | writeWithin ht' =>
    obtain rfl := Option.some.inj (ht.symm.trans ht')
    simp only [writeWithin] at hok ⊢
    split at hok
    · simp [World.refuse] at hok
    · rename_i hsnapshot
      rw [if_neg hsnapshot]
      split at hok
      · exact ⟨_, inner, saved, rfl, hbegun, hpoints, hinner⟩
      · simp [World.refuse] at hok
      · simp [World.refuse] at hok
      · simp [World.refuse] at hok

/-- The release of the outermost savepoint ends the transaction. -/
theorem commit_outermost {depth : Nat} (hdepth : w.conn.depth = depth + 2)
    (hw : Outermost (savepointName (depth + 1)) w) (hok : (commit R E id w).2 = .ok ()) :
    (commit R E id w).1.conn.transaction = none := by
  obtain ⟨t, inner, saved, ht, hbegun, hpoints, hinner⟩ := hw
  have hskip : t.savepoints.dropWhile (fun p => p.1 != savepointName (depth + 1)) =
      [(savepointName (depth + 1), saved)] := by
    rw [hpoints, List.dropWhile_append_of_pos fun p hp => by simpa using hinner p hp]
    simp
  simp only [commit, finish, hdepth, commitStatement] at hok ⊢
  have hexec : exec E id w (.release (savepointName (depth + 1)) : Statement D S R) =
      Sqlite.commitTransaction E id w t := by
    simp [exec, ht, hskip, hbegun]
  rw [hexec] at hok ⊢
  have hbranch := commitTransaction_branch E id (w := w) (R := R) t
  generalize (Sqlite.commitTransaction E id w t : Result D S R) = result at hbranch hok ⊢
  cases hbranch with
  | unwritten | written => rfl
  | deferred => simp [World.refuse] at hok

end

end Driver

end Sqlite
