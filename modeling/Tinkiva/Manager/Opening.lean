import Tinkiva.Manager.Shutdown

/-!
# Who opens an entry

`CellStep` says what a step of a task can do to the `OnceCell` of an entry.  From it, a cell
that is being filled has one task in `open_pools` (`openers_eq`), which is the task that the
others wait for, and a cell that has been touched is of an entry that exists
(`State.Opened`).
-/

namespace Tinkiva.Manager

open Tinkiva.Config TaskPool

variable {settings : DatabaseSettings}

/-! ## What a step does to the cell -/

/-- The entry on which the task is in `open_pools`. -/
def Task.opening : Task → Option EntryId
  | .acquire _ (.openPools e) => some e
  | _ => none

/-- What a step of task `t` to `t'` does to the cell of an entry. -/
inductive CellStep (σ σ' : Shared) (t t' : Task) (choice : Choice) (j : EntryId) : Prop where
  | kept (hinit : (σ'.heap j).pools.initializing = (σ.heap j).pools.initializing)
      (hset : (σ'.heap j).pools.value.isSome = (σ.heap j).pools.value.isSome)
      (hby : t'.opening = some j ↔ t.opening = some j) (hnot : t.opens choice ≠ some j)
  | begun (hby : t.opening ≠ some j) (hby' : t'.opening = some j)
      (hcell : (σ.heap j).pools = ⟨none, false⟩) (hcell' : (σ'.heap j).pools = ⟨none, true⟩)
      (hnot : t.opens choice ≠ some j)
  | opened (hopens : t.opens choice = some j) (hby' : t'.opening ≠ some j)
      (hcell' : (σ'.heap j).pools = ⟨some .fresh, false⟩)
  | failed (hby : t.opening = some j) (hby' : t'.opening ≠ some j)
      (hcell' : (σ'.heap j).pools = ⟨none, false⟩) (hnot : t.opens choice ≠ some j)
  | created (hnew : j = σ.created) (hby : t.opening ≠ some j) (hby' : t'.opening ≠ some j)
      (hcell' : (σ'.heap j).pools = ⟨none, false⟩) (hnot : t.opens choice ≠ some j)

theorem none_ne (j : EntryId) : (none : Option EntryId) ≠ some j := (Option.some_ne_none j).symm

/-- A step that leaves the cells alone and is not about `open_pools`. -/
theorem CellStep.of_pools {σ σ' : Shared} {t t' : Task} {choice : Choice} {j : EntryId}
    (hpools : (σ'.heap j).pools = (σ.heap j).pools) (hby : t.opening = none)
    (hby' : t'.opening = none) (hnot : t.opens choice = none) :
    CellStep σ σ' t t' choice j :=
  .kept (by rw [hpools]) (by rw [hpools]) (by rw [hby, hby']) (by simp [hnot])

/-- `close_entry` closes pools that are there. -/
theorem CloseBranch.cell {σ σ' : Shared} {e : EntryId} {pc : ClosePc} {pc' : Option ClosePc}
    (h : CloseBranch σ e pc (σ', pc')) (j : EntryId) :
    (σ'.heap j).pools.initializing = (σ.heap j).pools.initializing ∧
      (σ'.heap j).pools.value.isSome = (σ.heap j).pools.value.isSome := by
  cases h with
  | unopened | opened | optimize | checkpoint => exact ⟨rfl, rfl⟩
  | readers | writer =>
    rw [Shared.updatePools, pools_setPools]
    split
    · rename_i hj
      subst hj
      exact ⟨rfl, by simp⟩
    · exact ⟨rfl, rfl⟩

theorem AcquireBranch.cell {σ σ' : Shared} {call call' : Call} {pc pc' : AcquirePc}
    {choice : Choice} {spawned : Option EntryId}
    (h : AcquireBranch settings σ call pc choice (σ', call', pc', spawned)) (j : EntryId) :
    CellStep σ σ' (.acquire call pc) (.acquire call' pc') choice j := by
  cases h with
  | evictNext hevict | evictNone hevict | evictSome hevict =>
    exact .of_pools (by rw [hevict.pools]) rfl rfl rfl
  | insert =>
    by_cases hj : j = σ.created
    · refine .created hj (none_ne j) (none_ne j) ?_ (none_ne j)
      simp [Shared.recordOpen, pools_insertNew, hj, DatabaseEntry.new]
    · exact .of_pools (by simp [Shared.recordOpen, pools_insertNew, hj]) rfl rfl rfl
  | @ensureOpenInit e hpools hinit =>
    by_cases hj : j = e
    · subst hj
      refine .begun (none_ne j) rfl ?_ (by rw [pools_setPools, if_pos rfl]) (none_ne j)
      cases hcell : (σ.heap j).pools
      simp_all
    · have hne : e ≠ j := Ne.symm hj
      refine .kept ?_ ?_ ?_ (none_ne j)
      · rw [pools_setPools, if_neg hj]
      · rw [pools_setPools, if_neg hj]
      · simp [Task.opening, hne]
  | @openPools e =>
    by_cases hj : j = e
    · subst hj
      exact .opened rfl (none_ne j) (by rw [pools_setPools, if_pos rfl])
    · have hne : e ≠ j := Ne.symm hj
      refine .kept ?_ ?_ ?_ ?_
      · rw [pools_setPools, if_neg hj]
      · rw [pools_setPools, if_neg hj]
      · simp [Task.opening, hne]
      · simp [Task.opens, hne]
  | @openPoolsFailed e =>
    by_cases hj : j = e
    · subst hj
      exact .failed rfl (none_ne j) (by rw [pools_setPools, if_pos rfl]) (none_ne j)
    · have hne : e ≠ j := Ne.symm hj
      refine .kept ?_ ?_ ?_ (none_ne j)
      · rw [pools_setPools, if_neg hj]
      · rw [pools_setPools, if_neg hj]
      · simp [Task.opening, hne]
  | dropNext hdrop | dropSlots hdrop | dropDone hdrop =>
    exact .of_pools (by rw [hdrop.pools]) rfl rfl rfl
  | _ => exact .of_pools (by simp [Shared.recordShed]) rfl rfl rfl

/-- The one spec of a step of a task, for the cell of an entry. -/
theorem TaskBranch.cell {σ σ' : Shared} {t t' : Task} {choice : Choice} {spawned : List Task}
    (h : TaskBranch settings σ t choice (σ', t', spawned)) (j : EntryId) :
    CellStep σ σ' t t' choice j := by
  cases h with
  | acquire h => exact h.cell j
  | cleanupIdle h =>
    cases h with
    | takeNext htake | takeNone htake | takeSome htake =>
      exact .of_pools (by rw [htake.pools]) rfl rfl rfl
    | closeNext hclose | closeDone hclose =>
      exact .kept (hclose.cell j).1 (hclose.cell j).2 .rfl (none_ne j)
    | _ => exact .of_pools rfl rfl rfl rfl
  | checkpointWal h =>
    cases h with
    | leaseTaken => exact .of_pools (by simp) rfl rfl rfl
    | dropNext hdrop | dropDone hdrop | abortNext hdrop | abortDone hdrop =>
      exact .of_pools (by rw [hdrop.pools]) rfl rfl rfl
    | _ => exact .of_pools rfl rfl rfl rfl
  | closeEntry h => exact .kept (h.cell j).1 (h.cell j).2 .rfl (none_ne j)
  | closeAll h =>
    cases h with
    | beginClose => exact .of_pools (by simp) rfl rfl rfl
    | closeNext hclose | closeDone hclose =>
      exact .kept (hclose.cell j).1 (hclose.cell j).2 .rfl (none_ne j)
    | _ => exact .of_pools rfl rfl rfl rfl

/-- A dropped future gives the cell back, as a failure does. -/
theorem TaskCancelBranch.cell {σ σ' : Shared} {t t' : Task} (h : TaskCancelBranch σ t (σ', t'))
    (j : EntryId) : CellStep σ σ' t t' .fail j := by
  cases h with
  | acquire h =>
    cases h with
    | lock | yield | tenantSlot | ensureOpen => exact .of_pools rfl rfl rfl rfl
    | processSlot => exact .of_pools (by simp) rfl rfl rfl
    | @openPools e =>
      by_cases hj : j = e
      · subst hj
        exact .failed rfl (none_ne j) (by rw [pools_setPools, if_pos rfl]) (none_ne j)
      · have hne : e ≠ j := Ne.symm hj
        refine .kept ?_ ?_ ?_ (none_ne j)
        · rw [pools_setPools, if_neg hj]
        · rw [pools_setPools, if_neg hj]
        · simp [Task.opening, hne]
  | cleanupIdle | checkpointWal => exact .of_pools rfl rfl rfl rfl

/-! ## The cell and the tasks -/

/-- The tasks in `open_pools` on an entry. -/
def State.openers (s : State) (e : EntryId) : Nat :=
  s.tasks.countP fun t => decide (t.opening = some e)

/-- The cell of an entry is an account of its openers. -/
structure State.Opened (s : State) (e : EntryId) : Prop where
  openers : s.openers e = (s.shared.heap e).pools.initializing.toNat
  known : (s.shared.heap e).pools.initializing = true ∨
    (s.shared.heap e).pools.value.isSome = true → e < s.shared.created

section Step

variable {s s' : State} {a : Action} {e : EntryId}

/-- Who holds a lease on an entry has found it in the registry. -/
theorem lease_lt (h : (manager settings).Reachable s) {t : Task} (ht : t ∈ s.tasks)
    (hlease : t.lease = some e) : e < s.shared.created := by
  by_contra hge
  obtain ⟨starts, hmon⟩ := exists_monitor h
  have hzero : (s.shared.heap e).activeLeases = 0 :=
    (reachable_inv hmon).2.sound.fresh e (Nat.le_of_not_lt hge)
  have hpos := holders_pos ht hlease
  have hword := ((counts_holders h e).of_pos hpos).1
  omega

theorem Task.lease_of_opening {t : Task} (h : t.opening = some e) : t.lease = some e := by
  unfold Task.opening at h
  split at h
  · exact h
  · simp at h

theorem Task.opening_of_opens {t : Task} {choice : Choice} (h : t.opens choice = some e) :
    t.opening = some e := by
  unfold Task.opens at h
  split at h
  · exact h
  · simp at h

/-- A step of task `i` moves the number of openers with the task. -/
theorem openers_update {i : Nat} {t t' : Task} {spawned : List Task}
    (hi : s.tasks[i]? = some t) (hs' : s'.tasks = update s.tasks i t' spawned)
    (hspawned : ∀ u ∈ spawned, u.opening = none) :
    s'.openers e + (decide (t.opening = some e)).toNat =
      s.openers e + (decide (t'.opening = some e)).toNat := by
  have hbal := tally_update (fun u : Task => (decide (u.opening = some e)).toNat) t' spawned hi
  have hzero : tally (fun u : Task => (decide (u.opening = some e)).toNat) spawned = 0 :=
    tally_eq_zero fun u hu => by simp [hspawned u hu]
  rw [hzero, Nat.add_zero] at hbal
  simp only [State.openers, hs', countP_eq_tally]
  exact hbal

/-- The registry only grows. -/
theorem created_mono (h : s.step settings a = some s') : s.shared.created ≤ s'.shared.created := by
  obtain ⟨c, p, hrule, _⟩ := State.step_refines (fun _ => 0) h
  exact hrule.name_mono.1

/-- A task that moves keeps the account. -/
theorem State.Opened.move {i : Nat} {t t' : Task} {choice : Choice} {spawned : List Task}
    (h : s.Opened e) (hi : s.tasks[i]? = some t)
    (hs' : s'.tasks = update s.tasks i t' spawned) (hspawned : ∀ u ∈ spawned, u.opening = none)
    (hcreated : s.shared.created ≤ s'.shared.created)
    (hlt : t'.opening = some e → e < s'.shared.created)
    (hcell : CellStep s.shared s'.shared t t' choice e) : s'.Opened e := by
  have hbal : s'.openers e + (decide (t.opening = some e)).toNat =
      s.openers e + (decide (t'.opening = some e)).toNat := openers_update hi hs' hspawned
  obtain ⟨hopeners, hknown⟩ := h
  -- A task in `open_pools` has the cell.
  have hpos (hby : t.opening = some e) : (s.shared.heap e).pools.initializing = true := by
    have : 0 < s.openers e :=
      List.countP_pos_iff.mpr ⟨t, List.mem_of_getElem? hi, by simpa using hby⟩
    rw [hopeners] at this
    cases hinit : (s.shared.heap e).pools.initializing <;> simp [hinit] at this ⊢
  cases hcell with
  | kept hinit hset hby hnot =>
    refine ⟨?_, fun hsome => ?_⟩
    · rw [hinit, ← hopeners]
      simp only [hby] at hbal
      exact Nat.add_right_cancel hbal
    · rw [hinit, hset] at hsome
      exact Nat.lt_of_lt_of_le (hknown hsome) hcreated
  | begun hby hby' hcell hcell' hnot =>
    refine ⟨?_, fun _ => hlt hby'⟩
    simp [hby, hby', hopeners, hcell] at hbal
    simp [hcell', hbal]
  | opened hopened hby' hcell' =>
    have hby := Task.opening_of_opens hopened
    have hinit := hpos hby
    refine ⟨?_, fun _ => Nat.lt_of_lt_of_le (hknown (Or.inl hinit)) hcreated⟩
    simp [hby, hby', hopeners, hinit] at hbal
    simp [hcell', hbal]
  | failed hby hby' hcell' hnot =>
    have hinit := hpos hby
    refine ⟨?_, fun h' => by simp [hcell'] at h'⟩
    simp [hby, hby', hopeners, hinit] at hbal
    simp [hcell', hbal]
  | created hnew hby hby' hcell' hnot =>
    -- Nobody has a cell that does not exist yet.
    have hunknown : (s.shared.heap e).pools.initializing = false := by
      rw [← Bool.not_eq_true]
      exact fun h' => absurd (hnew ▸ hknown (.inl h')) (Nat.lt_irrefl _)
    refine ⟨?_, fun h' => by simp [hcell'] at h'⟩
    simp [hby, hby', hopeners, hunknown] at hbal
    simp [hcell', hbal]

theorem Operation.opening_task (operation : Operation) : operation.task.opening = none := by
  cases operation with
  | acquire name =>
    simp only [Operation.task]
    split <;> rfl
  | cleanupIdle | checkpointWal | closeAll => rfl

/-- A step of the system keeps the account. -/
theorem State.Opened.step (hreach : (manager settings).Reachable s) (h : s.Opened e)
    (hstep : s.step settings a = some s') : s'.Opened e := by
  have hreach' : (manager settings).Reachable s' := hreach.step trivial hstep
  have hcreated := created_mono hstep
  rcases State.step_cases hstep with ⟨operation, rfl, rfl⟩ |
    ⟨i, choice, t, σ', t', spawned, rfl, hi, htask, hadv⟩ | ⟨i, t, σ', t', rfl, hi, hcancel, hadv⟩ |
    ⟨nowMs, rfl, rfl⟩
  · obtain ⟨hopeners, hknown⟩ := h
    refine ⟨?_, hknown⟩
    simpa [State.openers, operation.opening_task] using hopeners
  · obtain ⟨rfl, _⟩ := State.advance_eq_some hadv
    have hbranch := Task.step_branch htask
    have hspawned : ∀ u ∈ spawned, u.opening = none := by
      cases hbranch with
      | acquire =>
        intro u hu
        obtain ⟨j, _, rfl⟩ := List.mem_map.mp hu
        rfl
      | cleanupIdle | checkpointWal | closeEntry | closeAll =>
        exact fun u hu => absurd hu List.not_mem_nil
    exact h.move hi rfl hspawned hcreated
      (fun hby => lease_lt hreach' (mem_update_self hi) (Task.lease_of_opening hby))
      (hbranch.cell e)
  · obtain ⟨rfl, _⟩ := State.advance_eq_some hadv
    exact h.move hi rfl (fun u hu => absurd hu List.not_mem_nil) hcreated
      (fun hby => lease_lt hreach' (mem_update_self hi) (Task.lease_of_opening hby))
      ((Task.cancel_branch hcancel).cell e)
  · exact ⟨h.openers, h.known⟩

end Step

theorem reachable_opened {s : State} (h : (manager settings).Reachable s) (e : EntryId) :
    s.Opened e := by
  refine h.invariant (I := fun s => s.Opened e) ?_ fun _ _ _ hr hopened _ hstep =>
    hopened.step hr hstep
  exact ⟨rfl, fun h => absurd h (not_or.mpr ⟨Bool.false_ne_true, Bool.false_ne_true⟩)⟩

/-- The cell of an entry is being filled while one task is in `open_pools` on it. -/
theorem openers_eq {s : State} (h : (manager settings).Reachable s) (e : EntryId) :
    s.openers e = (s.shared.heap e).pools.initializing.toNat :=
  (reachable_opened h e).openers

end Tinkiva.Manager
