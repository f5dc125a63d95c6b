import Tinkiva.Lib.StepSystem
import Tinkiva.Lib.TaskPool
import Tinkiva.Manager.Task

/-!
# The database manager as a step system

Any number of tasks over one shared state.  An action starts an operation,
lets one task do one step, drops the future of one task at its `await`, or sets
the clock.  The clock is free; a law that needs a clock that does not go back
says so.

A task keeps its index.  `tokio::spawn(close_entry(entry))` appends a new task.

The second half of the file reads a task: which entry it holds a lease on,
which permits it holds, and where it stands inside `acquire` or `take`.  The
laws of the manager are stated in these terms.

## The number of references

Every task that works on an entry owns an `Arc` clone of it.  `Arc::clone`
aborts the process when the reference count passes `isize::MAX`, so no run goes
on with `usize::MAX` references to one entry.  `State.step` is undefined there.
-/

namespace Tinkiva.Manager

open Tinkiva.Config

/-- A task of the process. -/
inductive Task where
  | acquire (call : Call) (pc : AcquirePc)
  | cleanupIdle (pc : CleanupPc)
  | checkpointWal (pc : CheckpointPc)
  | closeEntry (entry : EntryId) (pc : Option ClosePc)
  | closeAll (pc : CloseAllPc)
  deriving DecidableEq

/-- One step of a task: the new shared state, the new task, and the tasks that
it spawns. -/
def Task.step (settings : DatabaseSettings) (σ : Shared) :
    Task → Choice → Option (Shared × Task × List Task)
  | .acquire call pc, choice =>
    (acquireStep settings σ call pc choice).map fun (σ', call', pc', spawned) =>
      (σ', .acquire call' pc', spawned.toList.map fun e => .closeEntry e (some .start))
  | .cleanupIdle pc, choice =>
    (cleanupStep settings σ pc choice).map fun (σ', pc') => (σ', .cleanupIdle pc', [])
  | .checkpointWal pc, choice =>
    (checkpointStep σ pc choice).map fun (σ', pc') => (σ', .checkpointWal pc', [])
  | .closeEntry e (some pc), .go =>
    some ((closeStep σ e pc).1, .closeEntry e (closeStep σ e pc).2, [])
  | .closeEntry _ _, _ => none
  | .closeAll pc, choice =>
    (closeAllStep σ pc choice).map fun (σ', pc') => (σ', .closeAll pc', [])

/-- The future of a task is dropped. -/
def Task.cancel (σ : Shared) : Task → Option (Shared × Task)
  | .acquire call pc =>
    (acquireCancel σ pc).map fun (σ', pc') => (σ', .acquire call pc')
  | .cleanupIdle pc => (cleanupCancel σ pc).map fun (σ', pc') => (σ', .cleanupIdle pc')
  | .checkpointWal pc =>
    (checkpointCancel σ pc).map fun (σ', pc') => (σ', .checkpointWal pc')
  | _ => none

/-! ## What a task holds -/

/-- The entry that the task holds a lease on: it is past a successful
`lease()`, and the `fetch_sub` of its drop is not done. -/
def Task.lease : Task → Option EntryId
  | .acquire _ (.tenantSlot e) | .acquire _ (.processSlot e) | .acquire _ (.ensureOpen e)
  | .acquire _ (.openPools e) | .acquire _ (.removeIf e) | .acquire _ (.touch e)
  | .acquire _ (.store e _) | .acquire _ (.leased e) | .acquire _ (.drop e _ _ _) => some e
  | .checkpointWal (.pools e _ _) | .checkpointWal (.pragma e _ _)
  | .checkpointWal (.drop e _ _ _) | .checkpointWal (.abort e _) => some e
  | _ => none

/-- The entry whose tenant permit the task holds. -/
def Task.tenantSlot : Task → Option EntryId
  | .acquire _ (.processSlot e) | .acquire _ (.ensureOpen e) | .acquire _ (.openPools e)
  | .acquire _ (.removeIf e) | .acquire _ (.touch e) | .acquire _ (.store e _)
  | .acquire _ (.leased e) | .acquire _ (.drop e true _ _) | .acquire _ (.slots e _) => some e
  | _ => none

/-- Whether the task holds a process permit. -/
def Task.processSlot : Task → Bool
  | .acquire _ (.ensureOpen _) | .acquire _ (.openPools _) | .acquire _ (.removeIf _)
  | .acquire _ (.touch _) | .acquire _ (.store _ _) | .acquire _ (.leased _)
  | .acquire _ (.drop _ true _ _) | .acquire _ (.slots _ _) => true
  | _ => false

/-- Whether the task holds the admission guard. -/
def Task.admission : Task → Bool
  | .acquire _ .recheck | .acquire _ (.len _) | .acquire _ (.evict _ _)
  | .acquire _ .create | .acquire _ (.insert _) | .acquire _ (.unlock _) => true
  | _ => false

/-- The lease that `acquire` has returned and that its caller still uses. -/
def Task.leased : Task → Option (String × EntryId)
  | .acquire call (.leased e) => some (call.name, e)
  | _ => none

/-- The entry whose pools the task uses through its lease: `lease.writer()` and
`lease.readers()` need them to be set. -/
def Task.usesPools : Task → Option EntryId
  | .acquire _ (.leased e) | .checkpointWal (.pragma e _ _) => some e
  | _ => none

/-- The entry that `acquire` has looked up, from the return of `slot` until it
gives the entry up, fails to open it, or starts to drop its lease. -/
def Task.acquiring : Task → Option (String × EntryId)
  | .acquire call (.unlock (some e)) | .acquire call (.lease e _)
  | .acquire call (.tenantSlot e) | .acquire call (.processSlot e)
  | .acquire call (.ensureOpen e) | .acquire call (.openPools e)
  | .acquire call (.touch e) | .acquire call (.store e _)
  | .acquire call (.leased e) => some (call.name, e)
  | _ => none

/-- The program counter inside `take`, for the tasks that are in it. -/
def Task.takePc : Task → Option TakePc
  | .acquire _ (.evict _ (.take pc)) => some pc
  | .cleanupIdle (.take pc _ _) => some pc
  | _ => none

/-- The entry that the task has looked up in `take` and not yet tried to
close. -/
def Task.taking (t : Task) : Option (String × EntryId) :=
  match t.takePc with
  | some (.beginClose name e) => some (name, e)
  | _ => none

/-- The entry on which the task is between the successful `begin_close` of
`take` and its `remove`. -/
def Task.removing (t : Task) : Option (String × EntryId) :=
  match t.takePc with
  | some (.remove name e) => some (name, e)
  | _ => none

/-- The entry whose `close_entry` the task is about to start. -/
def Task.due : Task → Option EntryId
  | .cleanupIdle (.close e .start _ _) | .closeEntry e (some .start) => some e
  | _ => none

/-- Whether the task runs `close_all`. -/
def Task.isCloseAll : Task → Bool
  | .closeAll _ => true
  | _ => false

/-- Whether the task is a request: a call of `acquire` that is not over, or
its caller with the lease. -/
def Task.isRequest : Task → Bool
  | .acquire _ (.done _) => false
  | .acquire _ _ => true
  | _ => false

/-- The `Arc` clones that a task owns. -/
def Task.arcs : Task → List EntryId
  | .acquire _ (.unlock (some e)) | .acquire _ (.lease e _) | .acquire _ (.tenantSlot e)
  | .acquire _ (.processSlot e) | .acquire _ (.ensureOpen e) | .acquire _ (.openPools e)
  | .acquire _ (.removeIf e) | .acquire _ (.touch e) | .acquire _ (.store e _)
  | .acquire _ (.leased e) | .acquire _ (.drop e _ _ _) => [e]
  | .acquire _ (.evict _ (.take (.beginClose _ e)))
  | .acquire _ (.evict _ (.take (.remove _ e))) => [e]
  | .cleanupIdle (.take (.beginClose _ e) _ _) | .cleanupIdle (.take (.remove _ e) _ _)
  | .cleanupIdle (.close e _ _ _) => [e]
  | .checkpointWal (.scan _ es) => es
  | .checkpointWal (.lease e _ rest _) | .checkpointWal (.pools e rest _)
  | .checkpointWal (.pragma e rest _) | .checkpointWal (.drop e _ rest _) => e :: rest
  | .checkpointWal (.abort e _) => [e]
  | .closeEntry e (some _) => [e]
  | .closeAll (.scan _ es) | .closeAll (.clear es) => es
  | .closeAll (.beginClose e rest) | .closeAll (.close e _ rest) => e :: rest
  | _ => []

/-! ## The system -/

/-- The shared state and the tasks. -/
structure State where
  shared : Shared
  tasks : List Task

namespace State

/-- The number of lease holders of an entry. -/
def holders (s : State) (e : EntryId) : Nat :=
  s.tasks.countP fun t => decide (t.lease = some e)

/-- The number of `Arc` clones of an entry that the tasks own. -/
def arcCount (s : State) (e : EntryId) : Nat :=
  TaskPool.tally (fun t => t.arcs.count e) s.tasks

/-- An entry is linked: the map holds it under some name. -/
def Linked (s : State) (e : EntryId) : Prop :=
  ∃ name, s.shared.entries.lookup name = some e

/-- No call of `close_all` has been made. -/
def BeforeCloseAll (s : State) : Prop := ∀ t ∈ s.tasks, t.isCloseAll = false

end State

/-- The operations of the manager that a caller can start. -/
inductive Operation where
  | acquire (name : String)
  | cleanupIdle
  | checkpointWal
  | closeAll
  deriving DecidableEq, Repr

/-- The task of a new call.  `acquire` checks the name first. -/
def Operation.task : Operation → Task
  | .acquire name =>
    match validateDatabaseName name with
    | .ok () => .acquire ⟨name, 0⟩ .get
    | .error error => .acquire ⟨name, 0⟩ (.done (some error))
  | .cleanupIdle => .cleanupIdle .start
  | .checkpointWal => .checkpointWal .start
  | .closeAll => .closeAll .start

inductive Action where
  | start (operation : Operation)
  | step (task : Nat) (choice : Choice)
  | cancel (task : Nat)
  | clock (nowMs : Nat)
  deriving DecidableEq, Repr

/-- The state after task `i` has become `t'`, unless an `Arc` count would
overflow. -/
def State.advance (s : State) (i : Nat) (σ' : Shared) (t' : Task) (spawned : List Task) :
    Option State :=
  let s' : State := ⟨σ', TaskPool.update s.tasks i t' spawned⟩
  if (t' :: spawned).all fun t => t.arcs.all fun e => decide (s'.arcCount e < CLOSED)
  then some s' else none

/-- One step of the system. -/
def State.step (settings : DatabaseSettings) (s : State) : Action → Option State
  | .start operation => some { s with tasks := s.tasks ++ [operation.task] }
  | .step i choice =>
    match s.tasks[i]? with
    | none => none
    | some t =>
      match t.step settings s.shared choice with
      | none => none
      | some (σ', t', spawned) => s.advance i σ' t' spawned
  | .cancel i =>
    match s.tasks[i]? with
    | none => none
    | some t =>
      match t.cancel s.shared with
      | none => none
      | some (σ', t') => s.advance i σ' t' []
  | .clock nowMs => some { s with shared := { s.shared with now := nowMs } }

theorem State.advance_eq_some {s s' : State} {i : Nat} {σ' : Shared} {t' : Task}
    {spawned : List Task} (h : s.advance i σ' t' spawned = some s') :
    s' = ⟨σ', TaskPool.update s.tasks i t' spawned⟩ ∧
      ∀ t ∈ t' :: spawned, ∀ e ∈ t.arcs, s'.arcCount e < CLOSED := by
  simp only [State.advance] at h
  split at h
  · rename_i hall
    obtain rfl := Option.some.inj h
    refine ⟨rfl, fun t ht e he => ?_⟩
    simpa using List.all_eq_true.mp (List.all_eq_true.mp hall t ht) e he
  · simp at h

/-- The four kinds of step. -/
theorem State.step_cases {settings : DatabaseSettings} {s s' : State} {a : Action}
    (h : s.step settings a = some s') :
    (∃ operation, a = .start operation ∧
      s' = { s with tasks := s.tasks ++ [operation.task] }) ∨
    (∃ i choice t σ' t' spawned, a = .step i choice ∧ s.tasks[i]? = some t ∧
      t.step settings s.shared choice = some (σ', t', spawned) ∧
      s.advance i σ' t' spawned = some s') ∨
    (∃ i t σ' t', a = .cancel i ∧ s.tasks[i]? = some t ∧
      t.cancel s.shared = some (σ', t') ∧ s.advance i σ' t' [] = some s') ∨
    (∃ nowMs, a = .clock nowMs ∧
      s' = { s with shared := { s.shared with now := nowMs } }) := by
  cases a with
  | start operation => exact Or.inl ⟨operation, rfl, (Option.some.inj h).symm⟩
  | step i choice =>
    simp only [State.step] at h
    split at h
    · simp at h
    · rename_i t hi
      split at h
      · simp at h
      · rename_i σ' t' spawned hstep
        exact Or.inr (Or.inl ⟨i, choice, t, σ', t', spawned, rfl, hi, hstep, h⟩)
  | cancel i =>
    simp only [State.step] at h
    split at h
    · simp at h
    · rename_i t hi
      split at h
      · simp at h
      · rename_i σ' t' hcancel
        exact Or.inr (Or.inr (Or.inl ⟨i, t, σ', t', rfl, hi, hcancel, h⟩))
  | clock nowMs => exact Or.inr (Or.inr (Or.inr ⟨nowMs, rfl, (Option.some.inj h).symm⟩))

/-- A step is a step of the task, or the task stays where it is. -/
theorem State.step_task {settings : DatabaseSettings} {s s' : State} {a : Action} {i : Nat}
    {t : Task} (h : s.step settings a = some s') (hi : s.tasks[i]? = some t) :
    (((∀ choice, a ≠ .step i choice) ∧ a ≠ .cancel i) ∧ s'.tasks[i]? = some t) ∨
    (∃ choice σ' t' spawned, a = .step i choice ∧
      t.step settings s.shared choice = some (σ', t', spawned) ∧
      s' = ⟨σ', TaskPool.update s.tasks i t' spawned⟩) ∨
    (∃ σ' t', a = .cancel i ∧ t.cancel s.shared = some (σ', t') ∧
      s' = ⟨σ', TaskPool.update s.tasks i t' []⟩) := by
  rcases State.step_cases h with ⟨operation, rfl, rfl⟩ |
    ⟨j, choice, u, σ', u', spawned, rfl, hj, hu, hadv⟩ | ⟨j, u, σ', u', rfl, hj, hu, hadv⟩ |
    ⟨nowMs, rfl, rfl⟩
  · refine Or.inl ⟨⟨fun _ => Action.noConfusion, Action.noConfusion⟩, ?_⟩
    obtain ⟨hlt, _⟩ := List.getElem?_eq_some_iff.mp hi
    exact (List.getElem?_append_left hlt).trans hi
  · obtain ⟨rfl, _⟩ := State.advance_eq_some hadv
    by_cases hji : j = i
    · subst hji
      obtain rfl := Option.some.inj (hi.symm.trans hj)
      exact Or.inr (Or.inl ⟨choice, σ', u', spawned, rfl, hu, rfl⟩)
    · exact Or.inl ⟨⟨fun choice' ha => hji (Action.step.inj ha).1, Action.noConfusion⟩,
        TaskPool.getElem?_update_ne (Ne.symm hji) hi⟩
  · obtain ⟨rfl, _⟩ := State.advance_eq_some hadv
    by_cases hji : j = i
    · subst hji
      obtain rfl := Option.some.inj (hi.symm.trans hj)
      exact Or.inr (Or.inr ⟨σ', u', rfl, hu, rfl⟩)
    · exact Or.inl ⟨⟨fun _ => Action.noConfusion, fun ha => hji (Action.cancel.inj ha)⟩,
        TaskPool.getElem?_update_ne (Ne.symm hji) hi⟩
  · exact Or.inl ⟨⟨fun _ => Action.noConfusion, Action.noConfusion⟩, hi⟩

/-- The database manager. -/
def manager (settings : DatabaseSettings) : StepSystem State Action where
  init := ⟨.new settings, []⟩
  step := State.step settings

/-- The action does not call `close_all`. -/
def Action.beforeCloseAll (a : Action) : Prop := a ≠ .start .closeAll

instance : DecidablePred Action.beforeCloseAll := fun a =>
  inferInstanceAs (Decidable (a ≠ .start .closeAll))

end Tinkiva.Manager
