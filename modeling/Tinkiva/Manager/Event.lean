import Tinkiva.Manager.System

/-!
# The events of a run

The steps of the manager that the laws speak about by name: an entry is
inserted, `open_pools` starts, `close_entry` starts, and a failed open unlinks
its entry.  `State.event` reads the event of a step off the state before it and
the action, so a run has its list of events without a change to the model.

`monitor` is the manager with a passive counter beside it: how often
`close_entry` has been started on each entry.
-/

namespace Tinkiva.Manager

open Tinkiva.Config

inductive Event where
  /-- `entries.insert(name, entry)`, in `slot`. -/
  | insert (name : String) (entry : EntryId)
  /-- `get_or_try_init` calls `open_pools`. -/
  | openPools (entry : EntryId)
  /-- `close_entry` is entered. -/
  | closeEntry (entry : EntryId)
  /-- `remove_if` after a failed open. -/
  | unlinkFailed (name : String) (entry : EntryId)
  deriving DecidableEq, Repr

/-- The event of one step of `close_entry`. -/
def ClosePc.event (e : EntryId) : ClosePc → Option Event
  | .start => some (.closeEntry e)
  | _ => none

/-- The event of one step of a task. -/
def Task.event (σ : Shared) : Task → Choice → Option Event
  | .acquire call (.insert _), .go => some (.insert call.name σ.created)
  | .acquire _ (.ensureOpen e), .go =>
    if (σ.heap e).pools.value.isSome then none else some (.openPools e)
  | .acquire call (.removeIf e), .go => some (.unlinkFailed call.name e)
  | .cleanupIdle (.close e pc _ _), .go => pc.event e
  | .closeEntry e (some pc), .go => pc.event e
  | .closeAll (.close e pc _), .go => pc.event e
  | _, _ => none

/-- Only `slot` inserts an entry. -/
theorem Task.insert_of_event {σ : Shared} {t : Task} {choice : Choice} {name : String}
    {e : EntryId} (h : t.event σ choice = some (.insert name e)) :
    ∃ call nowMs, t = .acquire call (.insert nowMs) ∧ choice = .go ∧ call.name = name ∧
      e = σ.created := by
  unfold Task.event at h
  split at h
  case h_1 call nowMs =>
    obtain ⟨rfl, rfl⟩ : call.name = name ∧ σ.created = e := by simpa using h
    exact ⟨call, nowMs, rfl, rfl, rfl, rfl⟩
  case h_2 => split at h <;> simp at h
  case h_4 j pc _ _ | h_5 j pc | h_6 j pc _ => cases pc <;> simp [ClosePc.event] at h
  all_goals simp at h

/-- `remove_if` is called after a failed open only. -/
theorem Task.unlink_of_event {σ : Shared} {t : Task} {choice : Choice} {name : String}
    {e : EntryId} (h : t.event σ choice = some (.unlinkFailed name e)) :
    ∃ call, t = .acquire call (.removeIf e) ∧ call.name = name := by
  unfold Task.event at h
  split at h
  case h_3 call j =>
    obtain ⟨rfl, rfl⟩ : call.name = name ∧ j = e := by simpa using h
    exact ⟨call, rfl, rfl⟩
  case h_2 => split at h <;> simp at h
  case h_4 j pc _ _ | h_5 j pc | h_6 j pc _ => cases pc <;> simp [ClosePc.event] at h
  all_goals simp at h

/-- The event of one step of the system. -/
def State.event (s : State) : Action → Option Event
  | .step i choice =>
    match s.tasks[i]? with
    | none => none
    | some t => t.event s.shared choice
  | _ => none

/-- An event is the event of a task. -/
theorem State.exists_event {s : State} {a : Action} {ev : Event} (h : s.event a = some ev) :
    ∃ t ∈ s.tasks, ∃ choice, t.event s.shared choice = some ev := by
  cases a with
  | step i choice =>
    simp only [State.event] at h
    split at h
    · simp at h
    · rename_i t hi
      exact ⟨t, List.mem_of_getElem? hi, choice, h⟩
  | start operation | cancel i | clock nowMs => simp [State.event] at h

/-- Counts the starts of `close_entry`. -/
def countStart (starts : EntryId → Nat) : Option Event → EntryId → Nat
  | some (.closeEntry e) => Function.update starts e (starts e + 1)
  | _ => starts

/-- The manager, and the number of starts of `close_entry` on each entry. -/
def monitor (settings : DatabaseSettings) : StepSystem (State × (EntryId → Nat)) Action :=
  (manager settings).observe (fun _ => 0) fun starts s a _ => countStart starts (s.event a)

/-- A run of the monitored manager is a run of the manager. -/
theorem of_monitor {settings : DatabaseSettings} (ok : State → Action → Prop)
    {p : State × (EntryId → Nat)}
    (h : (monitor settings).ReachableVia (fun q a => ok q.1 a) p) :
    (manager settings).ReachableVia ok p.1 :=
  StepSystem.ReachableVia.of_observe ok h

/-- Every run of the manager can be monitored. -/
theorem exists_monitor {settings : DatabaseSettings} {ok : State → Action → Prop} {s : State}
    (h : (manager settings).ReachableVia ok s) :
    ∃ starts, (monitor settings).ReachableVia (fun q a => ok q.1 a) (s, starts) :=
  h.observed

/-- Task `i` does `n` steps in which the environment picks nothing. -/
def goes (i n : Nat) : List Action := List.replicate n (.step i .go)

/-- The next call of `acquire` is task `i`.  It finds `resident` other entries,
inserts its own and goes on until it opens the pools. -/
def admitted (i : Nat) (name : String) (resident : Nat) : List Action :=
  .start (.acquire name) :: goes i 3 ++ .step i (.count resident) :: goes i 8

/-- The same, until `acquire` has returned the lease. -/
def coldAcquire (i : Nat) (name : String) (resident : Nat) : List Action :=
  admitted i name resident ++ goes i 3

/-- The next call of `acquire` is task `i`.  It finds its entry linked and open, and
goes on until it has returned the lease. -/
def warmAcquire (i : Nat) (name : String) : List Action := .start (.acquire name) :: goes i 8

/-- Task `i`, which has its lease, drops it to the end. -/
def dropLease (i : Nat) : List Action := goes i 5

/-- The next call of `acquire` is task `i`.  It finds the registry full with one
entry and evicts it, up to the `begin_close` of `take`. -/
def evictFor (i : Nat) (name victim : String) : List Action :=
  .start (.acquire name) :: goes i 3 ++ .step i (.count 1) :: .step i (.visit victim) :: goes i 4

/-- The default settings, with room for one database. -/
def oneDatabase : DatabaseSettings := { DatabaseSettings.default with maxOpenDatabases := 1 }

/-- The default settings, with room for two databases. -/
def twoDatabases : DatabaseSettings := { DatabaseSettings.default with maxOpenDatabases := 2 }

end Tinkiva.Manager
