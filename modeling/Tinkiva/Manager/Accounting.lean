import Tinkiva.Manager.Lifecycle
import Tinkiva.Manager.Refusals
import Tinkiva.Manager.Rollback

/-!
# What the counters count

Every counter of the manager is raised in the middle of an operation that goes on after
it, and an operation may be dropped at its next wait.  `reachable_reported` is the account
of every run: the manager's tally is what the operations have reported.  A call that ends
as `Overloaded` is one shed request, an entry of the registry is one opening, a spawned
`close_entry` is one eviction, and the rounds of `cleanup_idle` and of `checkpoint_wal`
have counted what they have returned.  An aborted round has counted nothing.

The tally is added up field by field, so one balance equation is about all five.

Here a step and the `record_*` call that follows it are one.  `Tinkiva.Manager.Counters`
takes them apart and puts the atomics in place of the tally.
-/

namespace Tinkiva.Manager

open Tinkiva.Config TaskPool

attribute [ext] Metrics

namespace Metrics

instance : Zero Metrics := ⟨⟨0, 0, 0, 0, 0⟩⟩

instance : Add Metrics :=
  ⟨fun m n => ⟨m.requestsShed + n.requestsShed, m.databasesOpened + n.databasesOpened,
    m.databasesEvicted + n.databasesEvicted, m.databasesClosedIdle + n.databasesClosedIdle,
    m.walCheckpoints + n.walCheckpoints⟩⟩

instance : AddCancelCommMonoid Metrics where
  add_assoc a b c := by ext <;> exact Nat.add_assoc ..
  zero_add a := by ext <;> exact Nat.zero_add _
  add_zero a := by ext <;> exact Nat.add_zero _
  add_comm a b := by ext <;> exact Nat.add_comm ..
  nsmul := nsmulRec
  add_left_cancel a b c h := by
    have hfield (f : Metrics → Nat) (hf : ∀ m n, f (m + n) = f m + f n) : f b = f c :=
      Nat.add_left_cancel ((hf a b).symm.trans ((congrArg f h).trans (hf a c)))
    ext <;> exact hfield _ fun _ _ => rfl

section Fields

variable (m n : Metrics)

@[simp] theorem add_requestsShed : (m + n).requestsShed = m.requestsShed + n.requestsShed := rfl

@[simp] theorem add_databasesOpened :
    (m + n).databasesOpened = m.databasesOpened + n.databasesOpened := rfl

@[simp] theorem add_databasesEvicted :
    (m + n).databasesEvicted = m.databasesEvicted + n.databasesEvicted := rfl

@[simp] theorem add_databasesClosedIdle :
    (m + n).databasesClosedIdle = m.databasesClosedIdle + n.databasesClosedIdle := rfl

@[simp] theorem add_walCheckpoints :
    (m + n).walCheckpoints = m.walCheckpoints + n.walCheckpoints := rfl

end Fields

end Metrics

variable {settings : DatabaseSettings}

/-! ## Reports -/

/-- A call that ends with this error is a shed request. -/
def shedBy : Option AppError → Nat
  | some .overloaded => 1
  | _ => 0

/-- What the end of a task, or the way to it, reports to the counters. -/
def Task.reported : Task → Metrics
  | .acquire _ (.drop _ _ error _) | .acquire _ (.slots _ error) | .acquire _ (.done error) =>
    ⟨shedBy error, 0, 0, 0, 0⟩
  | .cleanupIdle (.done closed) => ⟨0, 0, 0, closed.getD 0, 0⟩
  | .checkpointWal (.done checkpointed) => ⟨0, 0, 0, 0, checkpointed.getD 0⟩
  | .closeEntry _ _ => ⟨0, 0, 1, 0, 0⟩
  | _ => 0

/-- The openings: every entry of the heap has been inserted once. -/
def Shared.inserted (σ : Shared) : Metrics := ⟨0, σ.created, 0, 0, 0⟩

/-- What is counted under the admission guard: openings and evictions. -/
def Metrics.guarded (m : Metrics) : Nat := m.databasesOpened + m.databasesEvicted

/-- A step that counts `m`.  What it counts is what is reported after it and was not
before.  It opens or evicts one database at most, and only while it holds the admission
guard. -/
structure Counted (σ σ' : Shared) (t t' : Task) (spawned : List Task) (m : Metrics) : Prop where
  metrics : σ'.metrics = σ.metrics + m
  balance : m + (t.reported + σ.inserted) =
    t'.reported + (tally Task.reported spawned + σ'.inserted)
  guarded : m.guarded = 0 ∨ m.guarded = 1 ∧ t.admission = true ∧ t'.admission = true

/-- A step of a task counts what it reports. -/
def Reports (σ σ' : Shared) (t t' : Task) (spawned : List Task) : Prop :=
  ∃ m, Counted σ σ' t t' spawned m

/-- A step that counts nothing and reports nothing new. -/
theorem Reports.of_kept {σ σ' : Shared} {t t' : Task} (hmetrics : σ'.metrics = σ.metrics)
    (hcreated : σ'.created = σ.created) (hreported : t'.reported = t.reported) :
    Reports σ σ' t t' [] := by
  refine ⟨0, by rw [hmetrics, add_zero], ?_, Or.inl rfl⟩
  rw [hreported, tally_nil, zero_add, zero_add, Shared.inserted, Shared.inserted, hcreated]

theorem CloseBranch.created {σ σ' : Shared} {e : EntryId} {pc : ClosePc} {pc' : Option ClosePc}
    (h : CloseBranch σ e pc (σ', pc')) : σ'.created = σ.created := by
  cases h <;> rfl

/-- `take` counts nothing. -/
theorem TakeBranch.counts {σ σ' : Shared} {pc : TakePc} {result : TakeStep}
    (h : TakeBranch σ pc (σ', result)) : σ'.metrics = σ.metrics ∧ σ'.created = σ.created := by
  cases h <;> exact ⟨rfl, rfl⟩

theorem EvictBranch.counts {σ σ' : Shared} {pc : EvictPc} {choice : Choice} {result : EvictStep}
    (h : EvictBranch σ pc choice (σ', result)) :
    σ'.created = σ.created ∧
      match result with
      | .next _ | .returned none => σ'.metrics = σ.metrics
      | .returned (some _) => σ'.metrics = σ.metrics + ⟨0, 0, 1, 0, 0⟩ := by
  cases h with
  | takeNext htake | takeNone htake => exact ⟨htake.counts.2, htake.counts.1⟩
  | takeSome htake =>
    refine ⟨htake.counts.2, ?_⟩
    simp only [Shared.recordEviction, htake.counts.1]
    rfl
  | visitLeased | visitIdle | noCandidate | oldest | older | newer => exact ⟨rfl, rfl⟩

theorem AcquireBranch.reports {σ σ' : Shared} {call call' : Call} {pc pc' : AcquirePc}
    {choice : Choice} {spawned : Option EntryId}
    (h : AcquireBranch settings σ call pc choice (σ', call', pc', spawned)) :
    Reports σ σ' (.acquire call pc) (.acquire call' pc')
      (spawned.toList.map fun e => .closeEntry e (some .start)) := by
  cases h with
  | evictNext hevict | evictNone hevict => exact .of_kept hevict.counts.2 hevict.counts.1 rfl
  | evictSome hevict =>
    refine ⟨⟨0, 0, 1, 0, 0⟩, hevict.counts.2, ?_, Or.inr ⟨rfl, rfl, rfl⟩⟩
    rw [Shared.inserted, Shared.inserted, hevict.counts.1]
    rfl
  | insert =>
    refine ⟨⟨0, 1, 0, 0, 0⟩, rfl, ?_, Or.inr ⟨rfl, rfl, rfl⟩⟩
    ext <;> simp [Task.reported, Shared.inserted, Shared.insertNew, Shared.recordOpen, Nat.add_comm]
  | tenantSlotTimeout | processSlotTimeout =>
    refine ⟨⟨1, 0, 0, 0, 0⟩, rfl, ?_, Or.inl rfl⟩
    ext <;> simp [Task.reported, shedBy, Shared.inserted, Shared.recordShed, Shared.giveTenantSlot,
      Shared.modify]
  | dropNext hdrop | dropSlots hdrop | dropDone hdrop =>
    exact .of_kept hdrop.metrics hdrop.created rfl
  | _ => exact .of_kept rfl rfl rfl

theorem CleanupPc.reported_next (closed : Nat) (rest : List String) :
    (Task.cleanupIdle (.next closed rest)).reported = 0 := by
  cases rest <;> rfl

theorem CheckpointPc.reported_next (n : Nat) (rest : List EntryId) :
    (Task.checkpointWal (.next n rest)).reported = 0 := by
  cases rest <;> rfl

theorem CleanupBranch.reports {σ σ' : Shared} {pc pc' : CleanupPc} {choice : Choice}
    (h : CleanupBranch settings σ pc choice (σ', pc')) :
    Reports σ σ' (.cleanupIdle pc) (.cleanupIdle pc') [] := by
  cases h with
  | finish => exact .of_kept rfl rfl (CleanupPc.reported_next ..)
  | takeNext htake | takeSome htake => exact .of_kept htake.counts.1 htake.counts.2 rfl
  | takeNone htake =>
    exact .of_kept htake.counts.1 htake.counts.2 (CleanupPc.reported_next ..)
  | closeNext hclose => exact .of_kept hclose.metrics hclose.created rfl
  | closeDone hclose =>
    exact .of_kept hclose.metrics hclose.created (CleanupPc.reported_next ..)
  | @record closed =>
    refine ⟨⟨0, 0, 0, closed, 0⟩, rfl, ?_, Or.inl rfl⟩
    ext <;> simp [Task.reported, Shared.inserted, Shared.recordIdleClose]
  | start | visitIdle | visitLeased | stale | recent => exact .of_kept rfl rfl rfl

theorem CheckpointBranch.reports {σ σ' : Shared} {pc pc' : CheckpointPc} {choice : Choice}
    (h : CheckpointBranch σ pc choice (σ', pc')) :
    Reports σ σ' (.checkpointWal pc) (.checkpointWal pc') [] := by
  cases h with
  | finish | leaseRefused => exact .of_kept rfl rfl (CheckpointPc.reported_next ..)
  | dropNext hdrop | abortNext hdrop | abortDone hdrop =>
    exact .of_kept hdrop.metrics hdrop.created rfl
  | dropDone hdrop => exact .of_kept hdrop.metrics hdrop.created (CheckpointPc.reported_next ..)
  | @record n =>
    refine ⟨⟨0, 0, 0, 0, n⟩, rfl, ?_, Or.inl rfl⟩
    ext <;> simp [Task.reported, Shared.inserted, Shared.recordCheckpoints]
  | start | visit | leaseNext | leaseTaken | poolsUnset | poolsSet | pragma | pragmaFailed =>
    exact .of_kept rfl rfl rfl

/-- The one spec of a step of a task, for the counters. -/
theorem TaskBranch.reports {σ σ' : Shared} {t t' : Task} {choice : Choice} {spawned : List Task}
    (h : TaskBranch settings σ t choice (σ', t', spawned)) : Reports σ σ' t t' spawned := by
  cases h with
  | acquire h => exact h.reports
  | cleanupIdle h => exact h.reports
  | checkpointWal h => exact h.reports
  | closeEntry h => exact .of_kept h.metrics h.created rfl
  | closeAll h =>
    cases h with
    | closeNext hclose | closeDone hclose => exact .of_kept hclose.metrics hclose.created rfl
    | start | visit | finish | clear | beginClose | beginCloseFailed => exact .of_kept rfl rfl rfl

/-- A future that is dropped has counted nothing that it does not report. -/
theorem TaskCancelBranch.reports {σ σ' : Shared} {t t' : Task}
    (h : TaskCancelBranch σ t (σ', t')) : Reports σ σ' t t' [] := by
  cases h with
  | acquire h => cases h <;> exact .of_kept rfl rfl rfl
  | cleanupIdle | checkpointWal => exact .of_kept rfl rfl rfl

/-- A call reports nothing at its start. -/
theorem Operation.reported_task (operation : Operation) : operation.task.reported = 0 := by
  cases operation with
  | acquire name =>
    simp only [Operation.task]
    split
    · rfl
    · rename_i error hinvalid
      rw [validateDatabaseName_error hinvalid]
      rfl
  | cleanupIdle | checkpointWal | closeAll => rfl

/-! ## The account -/

variable {s s' : State}

/-- The step of a task, dropped or not, that a step of the system consists of. -/
theorem State.step_counts {a : Action} {i : Nat} (hstep : s.step settings a = some s')
    (ha : a.task = some i) :
    ∃ t t' spawned m, s.tasks[i]? = some t ∧ s'.tasks = update s.tasks i t' spawned ∧
      Counted s.shared s'.shared t t' spawned m := by
  rcases State.step_cases hstep with ⟨operation, rfl, _⟩ |
    ⟨j, choice, t, σ', t', spawned, rfl, hj, htask, hadv⟩ |
    ⟨j, t, σ', t', rfl, hj, hcancel, hadv⟩ | ⟨nowMs, rfl, _⟩
  · cases ha
  · obtain rfl := Option.some.inj ha
    obtain ⟨rfl, _⟩ := State.advance_eq_some hadv
    obtain ⟨m, hcounts⟩ := (Task.step_branch htask).reports
    exact ⟨t, t', spawned, m, hj, rfl, hcounts⟩
  · obtain rfl := Option.some.inj ha
    obtain ⟨rfl, _⟩ := State.advance_eq_some hadv
    obtain ⟨m, hcounts⟩ := (Task.cancel_branch hcancel).reports
    exact ⟨t, t', [], m, hj, rfl, hcounts⟩
  · cases ha

/-- A call that starts and the clock count nothing. -/
theorem State.step_silent {a : Action} (hstep : s.step settings a = some s')
    (ha : a.task = none) :
    s'.shared.metrics = s.shared.metrics ∧ s'.shared.created = s.shared.created ∧
      tally Task.reported s'.tasks = tally Task.reported s.tasks := by
  rcases State.step_cases hstep with ⟨operation, rfl, rfl⟩ |
    ⟨j, choice, t, σ', t', spawned, rfl, _⟩ | ⟨j, t, σ', t', rfl, _⟩ | ⟨nowMs, rfl, rfl⟩
  · refine ⟨rfl, rfl, ?_⟩
    rw [tally_append, tally_cons, operation.reported_task, tally_nil, add_zero, add_zero]
  · cases ha
  · cases ha
  · exact ⟨rfl, rfl, rfl⟩

/-- The tally is what the tasks have reported, and the entries that exist. -/
def State.Reported (s : State) : Prop :=
  s.shared.metrics = tally Task.reported s.tasks + s.shared.inserted

theorem State.Reported.step {a : Action} (h : s.Reported) (hstep : s.step settings a = some s') :
    s'.Reported := by
  cases ha : a.task with
  | none =>
    obtain ⟨hmetrics, hcreated, hreported⟩ := State.step_silent hstep ha
    rw [State.Reported, hmetrics, hreported, Shared.inserted, hcreated]
    exact h
  | some i =>
    obtain ⟨t, t', spawned, m, hi, htasks, hcounts⟩ := State.step_counts hstep ha
    obtain ⟨frame, hbefore, hafter⟩ := exists_frame Task.reported hi
    rw [State.Reported, hbefore] at h
    rw [State.Reported, htasks, hafter, hcounts.metrics, h]
    -- What the other tasks have reported stands on both sides.
    calc frame + t.reported + s.shared.inserted + m
        = frame + (m + (t.reported + s.shared.inserted)) := by abel
      _ = frame + (t'.reported + (tally Task.reported spawned + s'.shared.inserted)) := by
          rw [hcounts.balance]
      _ = frame + (t'.reported + tally Task.reported spawned) + s'.shared.inserted := by abel

theorem reachable_reported (h : (manager settings).Reachable s) : s.Reported :=
  h.invariant (by rfl) fun _ _ _ _ hreported _ hstep => hreported.step hstep

/-- The call ends as `Overloaded`, or is on its way to. -/
def Task.isShed : Task → Bool
  | .acquire _ (.drop _ _ error _) | .acquire _ (.slots _ error) | .acquire _ (.done error) =>
    decide (error = some .overloaded)
  | _ => false

/-- The task is a `close_entry` that an eviction has spawned. -/
def Task.isCloseEntry : Task → Bool
  | .closeEntry _ _ => true
  | _ => false

/-- What a round of `cleanup_idle` has returned. -/
def Task.closedIdle : Task → Nat
  | .cleanupIdle (.done (some closed)) => closed
  | _ => 0

/-- What a round of `checkpoint_wal` has returned. -/
def Task.checkpointed : Task → Nat
  | .checkpointWal (.done (some checkpointed)) => checkpointed
  | _ => 0

theorem shedBy_eq (error : Option AppError) :
    shedBy error = (decide (error = some .overloaded)).toNat := by
  unfold shedBy
  split <;> simp_all

theorem Task.reported_eq (t : Task) :
    t.reported =
      ⟨t.isShed.toNat, 0, t.isCloseEntry.toNat, t.closedIdle, t.checkpointed⟩ := by
  cases t with
  | acquire call pc => cases pc <;> first | rfl | simp [reported, isShed, shedBy_eq, isCloseEntry,
      closedIdle, checkpointed]
  | cleanupIdle pc =>
    cases pc with
    | done closed => cases closed <;> rfl
    | _ => rfl
  | checkpointWal pc =>
    cases pc with
    | done n => cases n <;> rfl
    | _ => rfl
  | closeEntry e pc => rfl
  | closeAll pc => cases pc <;> rfl

/-- A field of the counters, added up over the tasks. -/
theorem tally_field (f : Metrics → Nat) (hzero : f 0 = 0) (hadd : ∀ m n, f (m + n) = f m + f n)
    (ts : List Task) : f (tally Task.reported ts) = tally (fun t => f t.reported) ts :=
  map_tally Task.reported ⟨⟨f, hzero⟩, hadd⟩ ts

/-- What the operations have done, counted where they stand: the calls of `acquire` that
end as `Overloaded`, the entries inserted, the entries evicted, and the sums of what the
rounds of `cleanup_idle` and of `checkpoint_wal` have come to. -/
def State.done (s : State) : Metrics where
  requestsShed := s.tasks.countP Task.isShed
  databasesOpened := s.shared.created
  databasesEvicted := s.tasks.countP Task.isCloseEntry
  databasesClosedIdle := tally Task.closedIdle s.tasks
  walCheckpoints := tally Task.checkpointed s.tasks

/-- The manager's tally is what the operations have done. -/
theorem metrics_eq_done (h : (manager settings).Reachable s) : s.shared.metrics = s.done := by
  have hreported := reachable_reported h
  have hfield (f : Metrics → Nat) (hzero : f 0 = 0) (hadd : ∀ m n, f (m + n) = f m + f n) :
      f s.shared.metrics = tally (fun t => f t.reported) s.tasks + f s.shared.inserted := by
    rw [hreported, hadd, tally_field f hzero hadd]
  have hnone : tally (fun _ : Task => 0) s.tasks = 0 := tally_eq_zero fun _ _ => rfl
  ext
  · rw [hfield Metrics.requestsShed rfl fun _ _ => rfl]
    simp only [State.done, countP_eq_tally, Task.reported_eq, Shared.inserted, Nat.add_zero]
  · rw [hfield Metrics.databasesOpened rfl fun _ _ => rfl]
    simp only [State.done, Task.reported_eq, Shared.inserted, hnone, Nat.zero_add]
  · rw [hfield Metrics.databasesEvicted rfl fun _ _ => rfl]
    simp only [State.done, countP_eq_tally, Task.reported_eq, Shared.inserted, Nat.add_zero]
  · rw [hfield Metrics.databasesClosedIdle rfl fun _ _ => rfl]
    simp only [State.done, Task.reported_eq, Shared.inserted, Nat.add_zero]
  · rw [hfield Metrics.walCheckpoints rfl fun _ _ => rfl]
    simp only [State.done, Task.reported_eq, Shared.inserted, Nat.add_zero]

end Tinkiva.Manager
