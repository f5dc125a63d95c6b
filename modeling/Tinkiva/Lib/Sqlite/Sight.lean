import Tinkiva.Lib.Sqlite.Text

/-!
# What a text sees

A text sees the contents that its connection works on, the contents at its
savepoints, and its session.  Whether these contents are committed, and by which
transaction they will be, it does not see, if its statements do not ask whether they are
in a transaction (`Statement.Blind`).

`exec_sees` says that a statement that ends well does to a connection what
`Sight.step` does to the sight of it.  So a blind text that does not end the transaction
yields the same in a transaction of a `BEGIN` as by itself, which is
`stream_within`.
-/

namespace Sqlite

open LazyStream

variable {D S R F : Type}

/-- What a connection sees. -/
structure Sight (D S : Type) where
  session : S
  queryOnly : Bool
  contents : D
  savepoints : List (String × D)

/-- A statement that does the same inside a transaction as outside. -/
def Statement.Blind : Statement D S R → Prop
  | .read run => run true = run false
  | .write run => run true = run false
  | _ => True

/-- A statement that ends well, and its rows.  `BEGIN`, `COMMIT` and `ROLLBACK` are
about the transaction, which is not seen. -/
def Sight.step (σ : Sight D S) : Statement D S R → Option (Sight D S × List R)
  | .begin _ | .commit | .rollback | .invalid _ => none
  | .savepoint name => some ({ σ with savepoints := (name, σ.contents) :: σ.savepoints }, [])
  | .release name =>
    match σ.savepoints.dropWhile (fun p => p.1 != name) with
    | [] => none
    | _ :: rest => some ({ σ with savepoints := rest }, [])
  | .rollbackTo name =>
    match σ.savepoints.dropWhile (fun p => p.1 != name) with
    | [] => none
    | (_, saved) :: rest =>
      some ({ σ with contents := saved, savepoints := (name, saved) :: rest }, [])
  | .queryOnly on => some ({ σ with queryOnly := on }, [])
  | .read run =>
    match run false σ.session σ.contents with
    | (session, rows, none) => some ({ σ with session := session }, rows)
    | (_, _, some _) => none
  | .write run =>
    if σ.queryOnly then none
    else
      match run false σ.session σ.contents with
      | (session, .ok (rows, contents)) =>
        some ({ σ with session := session, contents := contents }, rows)
      | (_, .error _) => none

/-- The savepoints of a transaction with the contents that they go back to. -/
def Transaction.points (t : Transaction D) (file : File D) : List (String × D) :=
  t.savepoints.map fun p => (p.1, p.2.getD (t.viewOf file).base)

/-- A transaction shows contents and savepoints.  If it has not written, they are
those of the file. -/
structure Transaction.Shows (t : Transaction D) (file : File D) (shown : D)
    (saved : List (String × D)) : Prop where
  current : (t.viewOf file).current = shown
  points : t.points file = saved
  unwritten : (t.viewOf file).wrote = false →
    shown = file.contents ∧ (t.viewOf file).base = file.contents ∧
      ∀ p ∈ saved, p.2 = file.contents

theorem points_dropWhile (t : Transaction D) (file : File D) (name : String) :
    (t.points file).dropWhile (fun p => p.1 != name) =
      (t.savepoints.dropWhile fun p => p.1 != name).map
        fun p => (p.1, p.2.getD (t.viewOf file).base) := by
  rw [Transaction.points, List.dropWhile_map]
  rfl

namespace Transaction.Shows

variable {t : Transaction D} {file : File D} {shown : D} {saved : List (String × D)}

theorem read (h : t.Shows file shown saved) :
    Transaction.Shows { t with view := some (t.viewOf file) } file shown saved :=
  ⟨h.current, h.points, h.unwritten⟩

/-- The view that is written is a view of any file. -/
theorem write (h : t.Shows file shown saved) (contents : D) (file' : File D) :
    Transaction.Shows
      { t with view := some { t.viewOf file with current := contents, wrote := true } }
      file' contents saved :=
  ⟨rfl, h.points, fun hwrote => Bool.noConfusion hwrote⟩

theorem savepoint (h : t.Shows file shown saved) (name : String) :
    Transaction.Shows { t with savepoints := (name, t.view.map View.current) :: t.savepoints }
      file shown ((name, shown) :: saved) := by
  refine ⟨h.current, ?_, fun hwrote => ?_⟩
  · have hfirst : (t.view.map View.current).getD (t.viewOf file).base = shown := by
      rw [← h.current]
      cases hview : t.view <;> simp [Transaction.viewOf, hview]
    show (name, (t.view.map View.current).getD (t.viewOf file).base) :: t.points file = _
    rw [hfirst, h.points]
  · obtain ⟨hshown, hbase, hsaved⟩ := h.unwritten hwrote
    refine ⟨hshown, hbase, fun p hp => ?_⟩
    rcases List.mem_cons.mp hp with rfl | hp
    · exact hshown
    · exact hsaved p hp

/-- The savepoints from some place on. -/
theorem release (h : t.Shows file shown saved) {before rest : List (String × Option D)}
    (hrest : t.savepoints = before ++ rest) :
    Transaction.Shows { t with savepoints := rest } file shown
      (rest.map fun p => (p.1, p.2.getD (t.viewOf file).base)) := by
  refine ⟨h.current, rfl, fun hwrote => ?_⟩
  obtain ⟨hshown, hbase, hsaved⟩ := h.unwritten hwrote
  refine ⟨hshown, hbase, fun p hp => hsaved p ?_⟩
  rw [← h.points, Transaction.points, hrest, List.map_append]
  exact List.mem_append_right _ hp

/-- The contents of the savepoint from which the savepoints go on. -/
theorem rollbackTo (h : t.Shows file shown saved) {before rest : List (String × Option D)}
    {found name : String} {contents : Option D}
    (hrest : t.savepoints = before ++ (found, contents) :: rest) :
    Transaction.Shows
      { t with
        view := t.view.map fun view => { view with current := contents.getD view.base }
        savepoints := (name, contents) :: rest }
      file (contents.getD (t.viewOf file).base)
      ((name, contents.getD (t.viewOf file).base) ::
        rest.map fun p => (p.1, p.2.getD (t.viewOf file).base)) := by
  have hback := h.release hrest
  have hfile : (t.viewOf file).wrote = false →
      contents.getD (t.viewOf file).base = file.contents ∧ (t.viewOf file).base = file.contents ∧
        ∀ p ∈ (name, contents.getD (t.viewOf file).base) ::
          rest.map fun p => (p.1, p.2.getD (t.viewOf file).base), p.2 = file.contents := by
    intro hwrote
    obtain ⟨_, hbase, hsaved⟩ := hback.unwritten hwrote
    rw [List.map_cons, List.forall_mem_cons] at hsaved
    exact ⟨hsaved.1, hbase, List.forall_mem_cons.mpr hsaved⟩
  cases hview : t.view with
  | none =>
    have hviewOf : t.viewOf file = ⟨file.version, file.contents, file.contents, false⟩ := by
      simp [Transaction.viewOf, hview]
    rw [hviewOf] at hfile ⊢
    exact ⟨(hfile rfl).1.symm, rfl, hfile⟩
  | some view =>
    have hviewOf : t.viewOf file = view := by simp [Transaction.viewOf, hview]
    rw [hviewOf] at hfile ⊢
    exact ⟨rfl, rfl, hfile⟩

end Transaction.Shows

/-- The connection sees `σ`. -/
structure World.Sees (w : World D S) (σ : Sight D S) : Prop where
  session : w.conn.session = σ.session
  queryOnly : w.conn.queryOnly = σ.queryOnly
  outside : w.conn.transaction = none → w.file.contents = σ.contents ∧ σ.savepoints = []
  inside : ∀ t, w.conn.transaction = some t → t.Shows w.file σ.contents σ.savepoints

namespace World.Sees

variable {w : World D S} {σ : Sight D S} {t : Transaction D}

theorem of_none (hsession : w.conn.session = σ.session)
    (hqueryOnly : w.conn.queryOnly = σ.queryOnly) (ht : w.conn.transaction = none)
    (hcontents : w.file.contents = σ.contents) (hsavepoints : σ.savepoints = []) : w.Sees σ :=
  ⟨hsession, hqueryOnly, fun _ => ⟨hcontents, hsavepoints⟩, fun t ht' => by simp [ht] at ht'⟩

theorem of_some (hsession : w.conn.session = σ.session)
    (hqueryOnly : w.conn.queryOnly = σ.queryOnly) (ht : w.conn.transaction = some t)
    (hshows : t.Shows w.file σ.contents σ.savepoints) : w.Sees σ := by
  refine ⟨hsession, hqueryOnly, fun hnone => by simp [ht] at hnone, fun t' ht' => ?_⟩
  obtain rfl := Option.some.inj (ht.symm.trans ht')
  exact hshows

end World.Sees

/-! ## One statement -/

section

variable (E : Engine D S F) (id : Nat) {w : World D S} {σ : Sight D S}

/-- The end of a transaction makes what it shows the contents of the file. -/
theorem CommitBranch.sees {t : Transaction D} {result : Result D S R}
    (h : CommitBranch E id w t result) (hw : w.Sees σ) (ht : w.conn.transaction = some t)
    (hok : result.status = .ok ()) :
    result.rows = [] ∧ result.world.Sees { σ with savepoints := [] } := by
  have hshows := hw.inside t ht
  cases h with
  | unwritten hunwritten =>
    have hwrote : (t.viewOf w.file).wrote = false := by
      cases hview : t.view with
      | none => simp [Transaction.viewOf, hview]
      | some view => simpa [Transaction.viewOf, hview] using hunwritten view hview
    have hcontents := (hshows.unwritten hwrote).1
    exact ⟨rfl, .of_none hw.session hw.queryOnly rfl hcontents.symm rfl⟩
  | deferred => simp [World.refuse] at hok
  | @written view hview =>
    have hviewOf : t.viewOf w.file = view := by simp [Transaction.viewOf, hview]
    have hcontents : view.current = σ.contents := hviewOf ▸ hshows.current
    exact ⟨rfl, .of_none hw.session hw.queryOnly rfl hcontents rfl⟩

/-- What is seen of a write that ends well. -/
theorem Sight.step_write {run : Bool → S → D → S × Except (Failure D) (List R × D)} {session : S}
    {rows : List R} {contents : D} (hquery : σ.queryOnly = false)
    (hrun : run false σ.session σ.contents = (session, .ok (rows, contents))) :
    σ.step (.write run) = some ({ σ with session := session, contents := contents }, rows) := by
  simp only [Sight.step, hquery, hrun]
  rfl

theorem writeThrough_sees (hw : w.Sees σ) (ht : w.conn.transaction = none)
    (hquery : w.conn.queryOnly = false) {run : Bool → S → D → S × Except (Failure D) (List R × D)}
    (hok : (writeThrough E w run).status = .ok ()) :
    ∃ σ', σ.step (.write run) = some (σ', (writeThrough E w run).rows) ∧
      (writeThrough E w run).world.Sees σ' := by
  obtain ⟨hcontents, hsaved⟩ := hw.outside ht
  rcases hrun : run false w.conn.session w.file.contents with ⟨session, failure | ⟨rows, contents⟩⟩
  · cases failure with
    | undo message | rollback message => simp [writeThrough, hrun, World.refuse] at hok
    | keep message contents =>
      cases hdeferred : E.deferred contents <;>
        simp [writeThrough, hrun, hdeferred, World.refuse] at hok
  · cases hdeferred : E.deferred contents with
    | some message => simp [writeThrough, hrun, hdeferred] at hok
    | none =>
      rw [hw.session, hcontents] at hrun
      rw [Sight.step_write (hw.queryOnly ▸ hquery) hrun]
      rw [← hw.session, ← hcontents] at hrun
      simp only [writeThrough, hrun, hdeferred]
      exact ⟨_, rfl, .of_none rfl hw.queryOnly ht rfl hsaved⟩

theorem writeWithin_sees (hw : w.Sees σ) {t : Transaction D} (ht : w.conn.transaction = some t)
    (hquery : w.conn.queryOnly = false) {run : Bool → S → D → S × Except (Failure D) (List R × D)}
    (hblind : run true = run false) (hok : (writeWithin id w t run).status = .ok ()) :
    ∃ σ', σ.step (.write run) = some (σ', (writeWithin id w t run).rows) ∧
      (writeWithin id w t run).world.Sees σ' := by
  have hshows := hw.inside t ht
  by_cases hsnapshot : w.file.lock ≠ some id ∧ (t.viewOf w.file).version ≠ w.file.version
  · simp [writeWithin, hsnapshot, World.refuse] at hok
  · rcases hrun : run true w.conn.session (t.viewOf w.file).current with
      ⟨session, failure | ⟨rows, contents⟩⟩
    · simp only [writeWithin, hrun, if_neg hsnapshot] at hok
      cases failure <;> simp [World.refuse] at hok
    · simp only [writeWithin, hrun, if_neg hsnapshot]
      rw [hblind, hw.session, hshows.current] at hrun
      rw [Sight.step_write (hw.queryOnly ▸ hquery) hrun]
      exact ⟨_, rfl, .of_some rfl hw.queryOnly rfl (hshows.write contents _)⟩

/-- A statement that ends well does to a connection what it does to the sight of it. -/
theorem exec_sees (hw : w.Sees σ) {s : Statement D S R} (hs : s.endsTransaction = false)
    (hblind : s.Blind) (hbegin : ∀ immediate, s ≠ .begin immediate)
    (hok : (exec E id w s).status = .ok ()) :
    ∃ σ', σ.step s = some (σ', (exec E id w s).rows) ∧ (exec E id w s).world.Sees σ' := by
  have hbranch := exec_branch E id (w := w) s
  generalize exec E id w s = result at hbranch hok ⊢
  -- The savepoints that are seen from the one of the name on.
  have hpoints {t : Transaction D} (ht : w.conn.transaction = some t) (name : String) :
      σ.savepoints.dropWhile (fun p => p.1 != name) =
        (t.savepoints.dropWhile fun p => p.1 != name).map
          fun p => (p.1, p.2.getD (t.viewOf w.file).base) := by
    rw [← (hw.inside t ht).points, points_dropWhile]
  have hsplit (t : Transaction D) (name : String) : t.savepoints =
      (t.savepoints.takeWhile fun p => p.1 != name) ++
        t.savepoints.dropWhile fun p => p.1 != name :=
    List.takeWhile_append_dropWhile.symm
  cases hbranch with
  | refused => simp [World.refuse] at hok
  | begin | beginImmediate => exact absurd rfl (hbegin _)
  | commit | rollback => simp [Statement.endsTransaction] at hs
  | savepointOutermost ht =>
    obtain ⟨hcontents, hsaved⟩ := hw.outside ht
    simp only [Sight.step, hsaved]
    refine ⟨_, rfl, .of_some hw.session hw.queryOnly rfl ⟨hcontents, ?_, fun _ => ?_⟩⟩
    · rw [← hcontents]
      rfl
    · exact ⟨hcontents.symm, rfl, by simp [World.ok, World.setTransaction, hcontents]⟩
  | @savepoint name t ht =>
    exact ⟨_, rfl, .of_some hw.session hw.queryOnly rfl ((hw.inside t ht).savepoint name)⟩
  | @releaseOutermost name t p result ht hrest _ hcommit =>
    obtain ⟨hrows, hsees⟩ := hcommit.sees E id hw ht hok
    simp only [Sight.step, hpoints ht, hrest, List.map_singleton, hrows]
    exact ⟨_, rfl, hsees⟩
  | @release name t p rest ht hrest =>
    have hsuffix := hsplit t name
    rw [hrest, ← List.singleton_append, ← List.append_assoc] at hsuffix
    simp only [Sight.step, hpoints ht, hrest, List.map_cons]
    exact ⟨_, rfl, .of_some hw.session hw.queryOnly rfl ((hw.inside t ht).release hsuffix)⟩
  | @rollbackTo name t saved rest ht hrest =>
    have hsuffix := hsplit t name
    rw [hrest] at hsuffix
    simp only [Sight.step, hpoints ht, hrest, List.map_cons]
    exact ⟨_, rfl, .of_some hw.session hw.queryOnly rfl ((hw.inside t ht).rollbackTo hsuffix)⟩
  | queryOnly on => exact ⟨_, rfl, hw.session, rfl, hw.outside, hw.inside⟩
  | @read _ _ _ error ht hrun =>
    obtain ⟨hcontents, hsaved⟩ := hw.outside ht
    rw [hw.session, hcontents] at hrun
    simp only [Sight.step, hrun]
    cases error with
    | some message => simp at hok
    | none => exact ⟨_, rfl, .of_none rfl hw.queryOnly ht hcontents hsaved⟩
  | @readWithin run t _ _ error ht hrun =>
    have hshows := hw.inside t ht
    have hsame : run true = run false := hblind
    rw [hsame, hw.session, hshows.current] at hrun
    simp only [Sight.step, hrun]
    cases error with
    | some message => simp at hok
    | none => exact ⟨_, rfl, .of_some rfl hw.queryOnly rfl hshows.read⟩
  | writeThrough ht hquery => exact writeThrough_sees E hw ht hquery hok
  | writeWithin ht hquery => exact writeWithin_sees id hw ht hquery hblind hok

/-- What a read yields is what it yields of what is seen. -/
theorem exec_read_sees (hw : w.Sees σ) {run : Bool → S → D → S × List R × Option String}
    (hblind : run true = run false) :
    (exec E id w (.read run)).status = (run false σ.session σ.contents).2.2.elim (.ok ())
      fun message => .error (.failed message) := by
  cases ht : w.conn.transaction with
  | none => simp only [exec, ht, ← hw.session, ← (hw.outside ht).1]
  | some t => simp only [exec, ht, hblind, ← hw.session, ← (hw.inside t ht).current]

theorem writeWithin_failed {t : Transaction D}
    {run : Bool → S → D → S × Except (Failure D) (List R × D)} {error : Error}
    (herror : (writeWithin id w t run).status = .error error) :
    (writeWithin id w t run).rows = [] := by
  by_cases hsnapshot : w.file.lock ≠ some id ∧ (t.viewOf w.file).version ≠ w.file.version
  · simp only [writeWithin, if_pos hsnapshot]
    rfl
  · rcases hrun : run true w.conn.session (t.viewOf w.file).current with
      ⟨session, failure | ⟨rows, contents⟩⟩
    · simp only [writeWithin, if_neg hsnapshot, hrun]
      cases failure <;> rfl
    · simp [writeWithin, hsnapshot, hrun] at herror

/-- Inside a transaction of a `BEGIN` a statement that fails yields no row, unless it is
a read. -/
theorem exec_begun_rows (hw : w.Begun) {s : Statement D S R} (hreads : ∀ run, s ≠ .read run)
    {error : Error} (herror : (exec E id w s).status = .error error) :
    (exec E id w s).rows = [] := by
  obtain ⟨t, ht, _⟩ := hw
  have hbranch := exec_branch E id (w := w) s
  generalize exec E id w s = result at hbranch herror ⊢
  cases hbranch with
  | commit _ hcommit | releaseOutermost _ _ _ hcommit => exact hcommit.silent.1
  | read | readWithin => exact absurd rfl (hreads _)
  | writeThrough hnone =>
    rw [ht] at hnone
    simp at hnone
  | writeWithin => exact writeWithin_failed id herror
  | _ => rfl

/-- A `BEGIN` is refused inside a transaction. -/
theorem exec_begin_begun (hw : w.Begun) (immediate : Bool) :
    (exec E id w (.begin immediate : Statement D S R)).status = .error .withinTransaction := by
  obtain ⟨t, ht, _⟩ := hw
  simp only [exec, ht, World.refuse]

/-- A blind text that does not end the transaction yields inside a transaction of a `BEGIN`
what it yields by itself, up to an error there. -/
theorem stream_within {inner outer : World D S} {statements : List (Statement D S R)}
    (hinner : inner.Sees σ) (houter : outer.Sees σ) (hbegun : inner.Begun)
    (hplain : ∀ s ∈ statements, s.endsTransaction = false ∧ s.Blind)
    (hall : ∀ pull ∈ stream E id outer statements, ∃ item, pull.2 = .ok item) :
    (stream E id inner statements).map Prod.snd = (stream E id outer statements).map Prod.snd ∨
      ∃ before error,
        (stream E id inner statements).map Prod.snd = before ++ [.error error] ∧
        before <+: (stream E id outer statements).map Prod.snd := by
  induction statements generalizing inner outer σ with
  | nil => exact Or.inl rfl
  | cons s rest ih =>
    obtain ⟨hs, hblind⟩ := hplain s List.mem_cons_self
    have houtcome : (exec E id outer s).status = .ok () := by
      cases hstatus : (exec E id outer s).status with
      | ok _ => rfl
      | error error =>
        obtain ⟨item, hitem⟩ := hall ((exec E id outer s).world, .error error)
          (by simp [stream, hstatus])
        simp at hitem
    cases hstatus : (exec E id inner s).status with
    | error error =>
      -- Not a read, since it would fail outside too: nothing comes before the error.
      have hreads : ∀ run, s ≠ .read run := by
        rintro run rfl
        rw [exec_read_sees E id hinner hblind, ← exec_read_sees E id houter hblind, houtcome]
          at hstatus
        simp at hstatus
      refine Or.inr ⟨[], error, ?_, List.nil_prefix⟩
      simp [stream, hstatus, exec_begun_rows E id hbegun hreads hstatus]
    | ok _ =>
      have hbegin : ∀ immediate, s ≠ .begin immediate := by
        rintro immediate rfl
        rw [exec_begin_begun E id hbegun] at hstatus
        simp at hstatus
      obtain ⟨σ₁, hstep, hinner₁⟩ := exec_sees E id hinner hs hblind hbegin hstatus
      obtain ⟨σ₂, hstep₂, houter₁⟩ := exec_sees E id houter hs hblind hbegin houtcome
      obtain ⟨rfl, hrows⟩ := Prod.mk.inj (Option.some.inj (hstep.symm.trans hstep₂))
      have hsession := hinner₁.session.trans houter₁.session.symm
      have hrest := ih hinner₁ houter₁ ((exec_begun E id hbegun hs).2 (Or.inl hstatus))
        (fun s hs => hplain s (List.mem_cons_of_mem _ hs))
        fun pull hpull => hall pull (by simp [stream, houtcome, hpull])
      simp only [stream, hstatus, houtcome, hrows, hsession, List.map_append, List.map_cons,
        List.map_map, Function.comp_def]
      rcases hrest with heq | ⟨before, error, heq, hpre⟩
      · exact Or.inl (by rw [heq])
      · rw [heq]
        refine Or.inr ⟨(exec E id outer s).rows.map (fun row => .ok (.inr row)) ++
          .ok (.inl (E.effect (exec E id outer s).world.conn.session)) :: before, error, ?_, ?_⟩
        · rw [List.append_assoc, List.cons_append]
        · exact (List.prefix_append_right_inj _).mpr (List.cons_prefix_cons.mpr ⟨rfl, hpre⟩)

end

end Sqlite
