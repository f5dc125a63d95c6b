import Tinkiva.Manager.Capacity
import Tinkiva.Manager.Coherence
import Tinkiva.Manager.Idle
import Tinkiva.Manager.Steps

/-!
# What a shutdown closes

`main` waits for its requests, aborts the two maintenance tasks and awaits
`close_all`, which closes what is linked.  An entry that an eviction or an idle
round has unlinked before is closed by another task: by a `close_entry` that
nobody waits for, or by the maintenance task that the shutdown aborts.

`ledger` runs the manager with a record of the entries that `open_pools` has
opened and of those on which `close_entry` has run to its end.  `shutdown_closes`
is the law of the runs in which no entry gets lost on the way: when `close_all`
returns, everything that was opened is closed.  Its invariant is that an open
entry is linked or owed by a task.
-/

namespace Tinkiva.Manager

open Tinkiva.Config Tinkiva.Protocol ConcurrentMap TaskPool TokenPool SentinelCounter Token

variable {settings : DatabaseSettings}

/-! ## The record -/

/-- The entries that `open_pools` has opened, and those on which `close_entry` has
run to its end: it has closed the readers, issued both `PRAGMA`s and closed the
writer. -/
structure Ledger where
  opened : EntryId → Bool
  closed : EntryId → Bool

/-- The entry that a step of a task opens: `open_pools` returns its pools. -/
def Task.opens : Task → Choice → Option EntryId
  | .acquire _ (.openPools e), .go => some e
  | _, _ => none

/-- The entry on which a step of a task is the last one of `close_entry`. -/
def Task.closes : Task → Option EntryId
  | .cleanupIdle (.close e .writer _ _) | .closeEntry e (some .writer)
  | .closeAll (.close e .writer _) => some e
  | _ => none

/-- What one step of a task adds to the record. -/
def Task.ledger (g : Ledger) (t : Task) (choice : Choice) : Ledger where
  opened := fun e => g.opened e || decide (t.opens choice = some e)
  closed := fun e => g.closed e || decide (t.closes = some e)

/-- What one step of the system adds to the record. -/
def State.ledger (s : State) (g : Ledger) : Action → Ledger
  | .step i choice =>
    match s.tasks[i]? with
    | none => g
    | some t => t.ledger g choice
  | _ => g

/-- The manager, and the record of its run. -/
def ledger (settings : DatabaseSettings) : StepSystem (State × Ledger) Action :=
  (manager settings).observe ⟨fun _ => false, fun _ => false⟩ fun g s a _ => s.ledger g a

/-! ## What a step does to the pools of an entry -/

section Pools

variable (σ : Shared) (e j : EntryId)

@[simp] theorem pools_setLeases (word : Nat) :
    ((σ.setLeases e word).heap j).pools = (σ.heap j).pools := by
  rw [Shared.setLeases, Shared.heap_modify]
  split <;> simp_all

@[simp] theorem pools_fetchSub : ((σ.fetchSub e).heap j).pools = (σ.heap j).pools :=
  pools_setLeases ..

@[simp] theorem pools_setLastUsed (nowMs : Nat) :
    ((σ.setLastUsed e nowMs).heap j).pools = (σ.heap j).pools := by
  rw [Shared.setLastUsed, Shared.heap_modify]
  split <;> simp_all

@[simp] theorem pools_takeTenantSlot :
    ((σ.takeTenantSlot e).heap j).pools = (σ.heap j).pools := by
  rw [Shared.takeTenantSlot, Shared.heap_modify]
  split <;> simp_all

@[simp] theorem pools_giveTenantSlot :
    ((σ.giveTenantSlot e).heap j).pools = (σ.heap j).pools := by
  rw [Shared.giveTenantSlot, Shared.heap_modify]
  split <;> simp_all

@[simp] theorem pools_giveSlots : ((σ.giveSlots e).heap j).pools = (σ.heap j).pools :=
  pools_giveTenantSlot ..

theorem pools_setPools (cell : OnceCell Pools) :
    ((σ.setPools e cell).heap j).pools = if j = e then cell else (σ.heap j).pools := by
  rw [Shared.setPools, Shared.heap_modify]
  split <;> rfl

theorem pools_insertNew (entry : DatabaseEntry) :
    ((σ.insertNew entry).heap j).pools =
      if j = σ.created then entry.pools else (σ.heap j).pools := by
  simp only [Shared.insertNew, Function.update_apply]
  split <;> rfl

end Pools

/-- What a step of a task does to the pools of an entry. -/
inductive PoolStep (σ σ' : Shared) (t : Task) (choice : Choice) (j : EntryId) : Prop where
  | kept (hvalue : (σ'.heap j).pools.value = (σ.heap j).pools.value)
  | opened (hby : t.opens choice = some j) (hvalue : (σ'.heap j).pools.value = some .fresh)
  | reset (call : Call) (hby : t = .acquire call (.openPools j))
      (hvalue : (σ'.heap j).pools.value = none)
  | drained (hvalue : (σ'.heap j).pools.value =
      (σ.heap j).pools.value.map fun pools => { pools with readers := ⟨true⟩ })
  | shut (hby : t.closes = some j) (hvalue : (σ'.heap j).pools.value =
      (σ.heap j).pools.value.map fun pools => { pools with writer := ⟨true⟩ })
  | created (hnew : j = σ.created) (hvalue : (σ'.heap j).pools.value = none)

theorem TakeBranch.pools {σ σ' : Shared} {pc : TakePc} {result : TakeStep}
    (h : TakeBranch σ pc (σ', result)) (j : EntryId) :
    (σ'.heap j).pools = (σ.heap j).pools := by
  cases h with
  | vacant | found | leased | remove => rfl
  | closed => exact pools_setLeases ..

theorem EvictBranch.pools {σ σ' : Shared} {pc : EvictPc} {choice : Choice} {result : EvictStep}
    (h : EvictBranch σ pc choice (σ', result)) (j : EntryId) :
    (σ'.heap j).pools = (σ.heap j).pools := by
  cases h with
  | visitLeased | visitIdle | noCandidate | oldest | older | newer => rfl
  | takeNext htake | takeNone htake | takeSome htake => exact htake.pools j

theorem DropBranch.pools {σ σ' : Shared} {e : EntryId} {pc : DropPc} {pc' : Option DropPc}
    (h : DropBranch σ e pc (σ', pc')) (j : EntryId) :
    (σ'.heap j).pools = (σ.heap j).pools := by
  cases h with
  | touch => rfl
  | store => exact pools_setLastUsed ..
  | fetchSub => exact pools_fetchSub ..

theorem CloseBranch.pools {σ σ' : Shared} {t : Task} {choice : Choice} {e : EntryId}
    {pc : ClosePc} {pc' : Option ClosePc} (h : CloseBranch σ e pc (σ', pc'))
    (hby : pc = .writer → t.closes = some e) (j : EntryId) : PoolStep σ σ' t choice j := by
  cases h with
  | unopened | opened | optimize | checkpoint => exact .kept rfl
  | readers =>
    by_cases hj : j = e
    · subst hj
      exact .drained (by rw [Shared.updatePools, pools_setPools, if_pos rfl])
    · exact .kept (by rw [Shared.updatePools, pools_setPools, if_neg hj])
  | writer =>
    by_cases hj : j = e
    · subst hj
      exact .shut (hby rfl) (by rw [Shared.updatePools, pools_setPools, if_pos rfl])
    · exact .kept (by rw [Shared.updatePools, pools_setPools, if_neg hj])

theorem AcquireBranch.pools {σ σ' : Shared} {call call' : Call} {pc pc' : AcquirePc}
    {choice : Choice} {spawned : Option EntryId}
    (h : AcquireBranch settings σ call pc choice (σ', call', pc', spawned)) (j : EntryId) :
    PoolStep σ σ' (.acquire call pc) choice j := by
  cases h with
  | evictNext hevict | evictNone hevict | evictSome hevict => exact .kept (by rw [hevict.pools])
  | @insert nowMs =>
    have hpools := pools_insertNew σ j
      (DatabaseEntry.new call.name settings.maxConcurrentRequestsPerDatabase nowMs)
    by_cases hj : j = σ.created
    · rw [if_pos hj] at hpools
      exact .created hj (congrArg OnceCell.value hpools)
    · rw [if_neg hj] at hpools
      exact .kept (congrArg OnceCell.value hpools)
  | @ensureOpenInit e hpools =>
    refine .kept ?_
    rw [pools_setPools]
    split
    · rename_i hj
      rw [hj, hpools]
    · rfl
  | @openPools e =>
    by_cases hj : j = e
    · subst hj
      exact .opened rfl (by rw [pools_setPools, if_pos rfl])
    · exact .kept (by rw [pools_setPools, if_neg hj])
  | @openPoolsFailed e =>
    by_cases hj : j = e
    · subst hj
      exact .reset call rfl (by rw [pools_setPools, if_pos rfl])
    · exact .kept (by rw [pools_setPools, if_neg hj])
  | dropNext hdrop | dropSlots hdrop | dropDone hdrop => exact .kept (by rw [hdrop.pools])
  | _ =>
    -- The other branches touch no pools.
    exact .kept (by simp [Shared.recordShed])

/-- The one spec of a step of a task, for the pools of an entry. -/
theorem TaskBranch.pools {σ σ' : Shared} {t t' : Task} {choice : Choice} {spawned : List Task}
    (h : TaskBranch settings σ t choice (σ', t', spawned)) (j : EntryId) :
    PoolStep σ σ' t choice j := by
  cases h with
  | acquire h => exact h.pools j
  | cleanupIdle h =>
    cases h with
    | takeNext htake | takeNone htake | takeSome htake => exact .kept (by rw [htake.pools])
    | closeNext hclose | closeDone hclose =>
      exact hclose.pools (fun hpc => by subst hpc; rfl) j
    | _ => exact .kept rfl
  | checkpointWal h =>
    cases h with
    | leaseTaken => exact .kept (by simp)
    | dropNext hdrop | dropDone hdrop | abortNext hdrop | abortDone hdrop =>
      exact .kept (by rw [hdrop.pools])
    | _ => exact .kept rfl
  | closeEntry h => exact h.pools (fun hpc => by subst hpc; rfl) j
  | closeAll h =>
    cases h with
    | beginClose => exact .kept (by simp)
    | closeNext hclose | closeDone hclose =>
      exact hclose.pools (fun hpc => by subst hpc; rfl) j
    | _ => exact .kept rfl

/-- A step that opens an entry is the success of `open_pools`. -/
theorem TaskBranch.opens {σ σ' : Shared} {t t' : Task} {choice : Choice} {spawned : List Task}
    (h : TaskBranch settings σ t choice (σ', t', spawned)) {e : EntryId}
    (hopens : t.opens choice = some e) :
    ∃ call, t = .acquire call (.openPools e) ∧
      (σ'.heap e).pools.value = some .fresh ∧ σ'.entries = σ.entries := by
  unfold Task.opens at hopens
  split at hopens
  · rename_i call j
    obtain rfl := Option.some.inj hopens
    cases h with
    | acquire h =>
      cases h with
      | openPools => exact ⟨call, rfl, by rw [pools_setPools, if_pos rfl], rfl⟩
  · simp at hopens

/-- An entry that is open after a step was open before it, or the step opens it. -/
theorem PoolStep.alive_back {σ σ' : Shared} {t : Task} {choice : Choice} {j : EntryId}
    (h : PoolStep σ σ' t choice j) (halive : (σ'.heap j).alive = true) :
    (σ.heap j).alive = true ∨ t.opens choice = some j := by
  rw [DatabaseEntry.alive] at halive ⊢
  cases h with
  | kept hvalue => exact Or.inl (hvalue ▸ halive)
  | opened hby => exact Or.inr hby
  | reset call _ hvalue | created _ hvalue => simp [hvalue] at halive
  | drained hvalue =>
    left
    rw [hvalue] at halive
    cases hv : (σ.heap j).pools.value <;> simp_all
  | shut _ hvalue =>
    rw [hvalue] at halive
    cases hv : (σ.heap j).pools.value <;> simp_all

/-! ## What still has to be closed -/

/-- The entries whose `close_entry` the task still has to run to its end. -/
def Task.owes : Task → List EntryId
  | .acquire _ (.evict _ (.take (.remove _ e))) | .cleanupIdle (.take (.remove _ e) _ _)
  | .cleanupIdle (.close e _ _ _) | .closeEntry e (some _) => [e]
  | .closeAll (.scan _ es) | .closeAll (.clear es) => es
  | .closeAll (.beginClose e rest) | .closeAll (.close e _ rest) => e :: rest
  | _ => []

/-- A task still has to close the entry. -/
def State.Owed (s : State) (e : EntryId) : Prop := ∃ t ∈ s.tasks, e ∈ t.owes

theorem Task.owes_of_removing {t : Task} {name : String} {e : EntryId}
    (h : t.removing = some (name, e)) : e ∈ t.owes := by
  rcases Task.of_takePc (Task.takePc_of_removing h) with ⟨call, attempts, rfl⟩ | ⟨rest, closed, rfl⟩
  · exact List.mem_singleton_self e
  · exact List.mem_singleton_self e

theorem CloseAllPc.owes_next (es : List EntryId) : (Task.closeAll (.next es)).owes = es := by
  cases es <;> rfl

/-- A step of a task does not lose what the task owes: the task or the
`close_entry` that it spawns owes it after the step, or its pools are not open. -/
theorem TaskBranch.owes {σ σ' : Shared} {t t' : Task} {choice : Choice} {spawned : List Task}
    (h : TaskBranch settings σ t choice (σ', t', spawned)) {e : EntryId} (he : e ∈ t.owes) :
    (∃ u ∈ t' :: spawned, e ∈ u.owes) ∨ (σ'.heap e).alive = false := by
  have hself (howes : e ∈ t'.owes) : ∃ u ∈ t' :: spawned, e ∈ u.owes :=
    ⟨t', List.mem_cons_self, howes⟩
  cases h with
  | acquire h =>
    cases h with
    | evictNext hevict =>
      cases hevict with
      | takeNext htake => cases htake <;> simp [Task.owes] at he
      | _ => simp [Task.owes] at he
    | evictNone hevict =>
      cases hevict with
      | takeNone htake => cases htake <;> simp [Task.owes] at he
      | _ => simp [Task.owes] at he
    | evictSome hevict =>
      cases hevict with
      | takeSome htake =>
        cases htake with
        | remove => exact Or.inl ⟨_, List.mem_cons_of_mem _ (List.mem_singleton_self _), he⟩
    | _ => simp [Task.owes] at he
  | cleanupIdle h =>
    cases h with
    | takeNext htake | takeNone htake => cases htake <;> simp [Task.owes] at he
    | takeSome htake =>
      cases htake with
      | remove => exact Or.inl (hself he)
    | closeNext => exact Or.inl (hself he)
    | closeDone hclose =>
      obtain rfl := List.mem_singleton.mp he
      exact Or.inr hclose.alive
    | _ => simp [Task.owes] at he
  | checkpointWal => simp [Task.owes] at he
  | @closeEntry j pc _ pc' h =>
    obtain rfl := List.mem_singleton.mp he
    cases pc' with
    | none => exact Or.inr h.alive
    | some pc' => exact Or.inl (hself (List.mem_singleton_self _))
  | closeAll h =>
    cases h with
    | start => simp [Task.owes] at he
    | visit => exact Or.inl (hself (List.mem_append_left _ he))
    | finish => exact Or.inl (hself he)
    | clear => exact Or.inl (hself (by rwa [CloseAllPc.owes_next]))
    | beginClose | beginCloseFailed | closeNext => exact Or.inl (hself he)
    | closeDone hclose =>
      rcases List.mem_cons.mp he with rfl | he
      · exact Or.inr hclose.alive
      · exact Or.inl (hself (by rwa [CloseAllPc.owes_next]))

/-! ## The condition -/

/-- What `main` does: it calls `close_all` once, after every request is over, and
takes no request after it. -/
def mainStep (s : State) : Action → Prop
  | .start .closeAll => s.BeforeCloseAll ∧ ∀ t ∈ s.tasks, t.isRequest = false
  | .start (.acquire _) => s.BeforeCloseAll
  | .start .cleanupIdle | .start .checkpointWal | .step _ _ | .cancel _ | .clock _ => True

/-- The entry that a step of the task unlinks without closing it: `remove_if` after
a failed open, and the `remove` of a `take` whose name is bound to another entry
than the one it closed. -/
def Task.loses (σ : Shared) : Task → Option EntryId
  | .acquire call (.removeIf e) =>
    (σ.entries.lookup call.name).filter fun j => decide (j = e)
  | t => t.removing.bind fun (name, e) =>
    (σ.entries.lookup name).filter fun j => decide (j ≠ e)

/-- The step of the task is the one on which `close_all` returns. -/
def Task.returns (σ : Shared) : Task → Bool
  | .closeAll pc => decide ((closeAllStep σ pc .go).map Prod.snd = some .done)
  | _ => false

/-- No open entry gets lost on the way.

* `open_pools` succeeds only while its entry is linked.
* What is unlinked without being closed has not been opened.
* A task is aborted inside `close_entry` only if the entry is closed by then, or
  another task will close it.
* `close_all` returns only when no other task has an open entry to close. -/
def tidyStep (s : State) : Action → Prop
  | .step i choice => ∀ t ∈ s.tasks[i]?,
    (∀ e ∈ t.opens choice, s.shared.entries.lookup (s.shared.heap e).name = some e) ∧
    (∀ e ∈ t.loses s.shared, (s.shared.heap e).pools.value = none) ∧
    (t.returns s.shared = true →
      ∀ u ∈ s.tasks.eraseIdx i, ∀ e ∈ u.owes, (s.shared.heap e).alive = false)
  | .cancel i => ∀ t ∈ s.tasks[i]?, ∀ e ∈ t.owes,
    (s.shared.heap e).alive = false ∨ ∃ u ∈ s.tasks.eraseIdx i, e ∈ u.owes
  | .start _ | .clock _ => True

instance (s : State) : Decidable s.BeforeCloseAll :=
  inferInstanceAs (Decidable (∀ t ∈ s.tasks, t.isCloseAll = false))

instance (s : State) : DecidablePred (mainStep s)
  | .start .closeAll => inferInstanceAs (Decidable (_ ∧ _))
  | .start (.acquire _) => inferInstanceAs (Decidable s.BeforeCloseAll)
  | .start .cleanupIdle | .start .checkpointWal | .step _ _ | .cancel _ | .clock _ => isTrue trivial

instance (s : State) : DecidablePred (tidyStep s)
  | .step i _ => inferInstanceAs (Decidable (∀ t ∈ s.tasks[i]?, _ ∧ _ ∧ _))
  | .cancel i => inferInstanceAs (Decidable (∀ t ∈ s.tasks[i]?, _))
  | .start _ | .clock _ => isTrue trivial

/-! ## The two phases of `main` -/

section Phases

variable {s s' : State} {a : Action}

/-- A task that is no request does not turn into one. -/
theorem TaskBranch.isRequest {σ σ' : Shared} {t t' : Task} {choice : Choice}
    {spawned : List Task} (h : TaskBranch settings σ t choice (σ', t', spawned))
    (ht : t.isRequest = false) : t'.isRequest = false := by
  cases h with
  | acquire h => cases h <;> simp [Task.isRequest] at ht
  | cleanupIdle | checkpointWal | closeEntry | closeAll => rfl

theorem TaskCancelBranch.isRequest {σ σ' : Shared} {t t' : Task}
    (h : TaskCancelBranch σ t (σ', t')) (ht : t.isRequest = false) : t'.isRequest = false := by
  cases h with
  | acquire h => cases h <;> simp [Task.isRequest] at ht
  | cleanupIdle | checkpointWal => rfl

/-- No future of `close_all` is dropped. -/
theorem TaskCancelBranch.isCloseAll {σ σ' : Shared} {t t' : Task}
    (h : TaskCancelBranch σ t (σ', t')) : t'.isCloseAll = false := by
  cases h <;> rfl

/-- A call of `close_all` stays one. -/
theorem State.isCloseAll_step (h : s.step settings a = some s')
    (hexists : ∃ t ∈ s.tasks, t.isCloseAll = true) : ∃ t ∈ s'.tasks, t.isCloseAll = true := by
  obtain ⟨t, ht, hcloseAll⟩ := hexists
  obtain ⟨i, hi⟩ := List.mem_iff_getElem?.mp ht
  rcases State.step_task h hi with ⟨_, hi'⟩ | ⟨choice, σ', t', spawned, _, hstep, rfl⟩ |
    ⟨σ', t', _, hcancel, rfl⟩
  · exact ⟨t, List.mem_of_getElem? hi', hcloseAll⟩
  · exact ⟨t', mem_update_self hi, (Task.step_isCloseAll hstep).1.trans hcloseAll⟩
  · exact ⟨t', mem_update_self hi, (Task.cancel_isCloseAll hcancel).trans hcloseAll⟩

/-- A run of `main` has not called `close_all`, or it has and no request is left. -/
theorem main_phase (h : (manager settings).ReachableVia mainStep s) :
    (manager settings).ReachableVia (fun _ a => a.beforeCloseAll) s ∨
      (∃ t ∈ s.tasks, t.isCloseAll = true) ∧
        ∀ (i : Nat) (t : Task), s.tasks[i]? = some t → t.isRequest = false := by
  induction h with
  | refl => exact Or.inl .refl
  | @step s s' a hr hok hs ih =>
    have hquiet (hexists : ∃ t ∈ s.tasks, t.isCloseAll = true)
        (hnone : ∀ (i : Nat) (t : Task), s.tasks[i]? = some t → t.isRequest = false) :
        ∀ (i : Nat) (t : Task), s'.tasks[i]? = some t → t.isRequest = false := by
      refine State.forall_step hs hnone (fun _ _ _ _ _ => id) ?_ ?_ ?_ ?_
      · intro i choice t t' spawned _ _ _ hbranch
        exact hbranch.isRequest
      · intro i t t' _ _ hbranch
        exact hbranch.isRequest
      · intro operation ha
        cases operation with
        | acquire name =>
          subst ha
          obtain ⟨t, ht, hcloseAll⟩ := hexists
          have hbefore : s.BeforeCloseAll := hok
          exact absurd (hbefore t ht) (by simp [hcloseAll])
        | cleanupIdle | checkpointWal | closeAll => rfl
      · intro i e
        rfl
    rcases ih with hbefore | ⟨hexists, hnone⟩
    · by_cases ha : a = .start .closeAll
      · subst ha
        right
        obtain rfl := Option.some.inj hs
        refine ⟨⟨_, List.mem_append_right _ (List.mem_singleton_self _), rfl⟩, ?_⟩
        intro i t hi
        rcases List.mem_append.mp (List.mem_of_getElem? hi) with ht | ht
        · exact hok.2 t ht
        · obtain rfl := List.mem_singleton.mp ht
          rfl
      · exact Or.inl (hbefore.step ha hs)
    · exact Or.inr ⟨State.isCloseAll_step hs hexists, hquiet hexists hnone⟩

/-- Once `close_all` is called, no request is left. -/
theorem no_request (h : (manager settings).ReachableVia mainStep s) {t u : Task}
    (ht : t ∈ s.tasks) (hcloseAll : t.isCloseAll = true) (hu : u ∈ s.tasks) :
    u.isRequest = false := by
  rcases main_phase h with hbefore | ⟨_, hnone⟩
  · have hfalse := reachable_beforeCloseAll (fun _ _ => id) hbefore t ht
    exact absurd hcloseAll (by simp [hfalse])
  · obtain ⟨i, hi⟩ := List.mem_iff_getElem?.mp hu
    exact hnone i u hi

theorem OnceCell.value_of_opening {cell : OnceCell Pools} (h : cell.stage = .opening) :
    cell.value = none := by
  unfold OnceCell.stage at h
  split at h
  · split at h
    · simp at h
    · split at h <;> simp at h
  · assumption

/-- While a call opens the pools of an entry, they are not set. -/
theorem opening_value (h : (manager settings).ReachableVia mainStep s) {call : Call}
    {e : EntryId} (ht : Task.acquire call (.openPools e) ∈ s.tasks) :
    e < s.shared.created ∧ (s.shared.heap e).pools.value = none := by
  rcases main_phase h with hbefore | ⟨_, hnone⟩
  · obtain ⟨starts, hmon⟩ := exists_monitor hbefore
    obtain ⟨hinv, horderly⟩ := reachable_orderly hmon
    have hmem : Token.lease e .opening ∈ (s.config starts).pool :=
      (mem_config s starts).mpr ⟨_, ht, by simp [Task.tokens, AcquirePc.tokens]⟩
    refine ⟨(hinv.sound.tokens _ hmem).lt rfl, ?_⟩
    have hstage : (s.shared.heap e).pools.stage = .opening :=
      horderly.opening_of_opens hmem (by simp [Token.opens])
    exact OnceCell.value_of_opening hstage
  · obtain ⟨i, hi⟩ := List.mem_iff_getElem?.mp ht
    exact absurd (hnone i _ hi) (by simp [Task.isRequest])

/-- After `close_all` is called, no entry is inserted. -/
theorem no_insert (h : (manager settings).ReachableVia mainStep s) {t : Task} (ht : t ∈ s.tasks)
    (hcloseAll : t.isCloseAll = true) (name : String) (e : EntryId) :
    s.event a ≠ some (.insert name e) := by
  intro hev
  obtain ⟨u, hu, choice, hev⟩ := State.exists_event hev
  obtain ⟨call, nowMs, rfl, _⟩ := Task.insert_of_event hev
  exact absurd (no_request h ht hcloseAll hu) (by simp [Task.isRequest])

end Phases

/-! ## The record is right -/

section Record

variable {s : State} {g : Ledger}

/-- A run of the recorded manager is a run of the manager. -/
theorem of_ledger (ok : State → Action → Prop)
    (h : (ledger settings).ReachableVia (fun q a => ok q.1 a) (s, g)) :
    (manager settings).ReachableVia ok s :=
  StepSystem.ReachableVia.of_observe ok h

/-- What a step does to the pools of an entry and to its record. -/
theorem State.step_pools {s' : State} {a : Action} (h : s.step settings a = some s')
    (e : EntryId) :
    ((s'.shared.heap e).pools.value = (s.shared.heap e).pools.value ∧ s.ledger g a = g) ∨
    (∃ i call, a = .cancel i ∧ s.tasks[i]? = some (.acquire call (.openPools e)) ∧
      (s'.shared.heap e).pools.value = none ∧ s.ledger g a = g) ∨
    (∃ i choice t t' spawned, a = .step i choice ∧ s.tasks[i]? = some t ∧
      TaskBranch settings s.shared t choice (s'.shared, t', spawned) ∧
      s.ledger g a = t.ledger g choice) := by
  rcases State.step_cases h with ⟨operation, rfl, rfl⟩ |
    ⟨i, choice, t, σ', t', spawned, rfl, hi, hstep, hadv⟩ | ⟨i, t, σ', t', rfl, hi, hcancel, hadv⟩ |
    ⟨nowMs, rfl, rfl⟩
  · exact Or.inl ⟨rfl, rfl⟩
  · obtain ⟨rfl, _⟩ := State.advance_eq_some hadv
    exact Or.inr (Or.inr ⟨i, choice, t, t', spawned, rfl, hi, Task.step_branch hstep,
      by simp [State.ledger, hi]⟩)
  · obtain ⟨rfl, _⟩ := State.advance_eq_some hadv
    cases Task.cancel_branch hcancel with
    | @acquire call _ _ _ hbranch =>
      cases hbranch with
      | @openPools j =>
        by_cases he : e = j
        · subst he
          exact Or.inr (Or.inl ⟨i, call, rfl, hi, by simp [pools_setPools], rfl⟩)
        · exact Or.inl ⟨by simp [pools_setPools, he], rfl⟩
      | _ => exact Or.inl ⟨by simp, rfl⟩
    | cleanupIdle | checkpointWal => exact Or.inl ⟨rfl, rfl⟩
  · exact Or.inl ⟨rfl, rfl⟩

/-- What was opened exists and its pools are set. -/
theorem opened_value (h : (ledger settings).ReachableVia (fun q a => mainStep q.1 a) (s, g)) :
    ∀ e, g.opened e = true → e < s.shared.created ∧ (s.shared.heap e).pools.value.isSome := by
  refine h.invariant (I := fun q => ∀ e, q.2.opened e = true →
    e < q.1.shared.created ∧ (q.1.shared.heap e).pools.value.isSome)
    (by simp [ledger, StepSystem.observe]) ?_
  rintro ⟨s, g⟩ a ⟨s', g'⟩ hr hI hok hs e hopened
  obtain ⟨hstep, rfl⟩ : s.step settings a = some s' ∧ g' = s.ledger g a :=
    StepSystem.observe_step.mp hs
  replace hI : ∀ e, g.opened e = true →
    e < s.shared.created ∧ (s.shared.heap e).pools.value.isSome := hI
  have hmain := of_ledger mainStep hr
  have hcreated : s.shared.created ≤ s'.shared.created := by
    obtain ⟨c, p, hrule, _⟩ := State.step_refines (fun _ => 0) hstep
    exact hrule.name_mono.1
  rcases State.step_pools (g := g) hstep e with ⟨hvalue, hg⟩ | ⟨i, call, _, hi, _, hg⟩ |
    ⟨i, choice, t, t', spawned, _, hi, hbranch, hg⟩
  · obtain ⟨hlt, hset⟩ := hI e (hg ▸ hopened)
    exact ⟨Nat.lt_of_lt_of_le hlt hcreated, hvalue ▸ hset⟩
  · have hnone := (opening_value hmain (List.mem_of_getElem? hi)).2
    have hset := (hI e (hg ▸ hopened)).2
    simp [hnone] at hset
  · have hold : g.opened e = true ∨ t.opens choice = some e := by
      simpa [hg, Task.ledger] using hopened
    have ht := List.mem_of_getElem? hi
    rcases hold with hold | hopens
    · obtain ⟨hlt, hset⟩ := hI e hold
      refine ⟨Nat.lt_of_lt_of_le hlt hcreated, ?_⟩
      cases hbranch.pools e with
      | kept hvalue => exact hvalue ▸ hset
      | opened _ hvalue => simp [hvalue]
      | reset call hby =>
        subst hby
        simp [(opening_value hmain ht).2] at hset
      | drained hvalue | shut _ hvalue => simpa [hvalue] using hset
      | created hnew => exact absurd (hnew ▸ hlt) (Nat.lt_irrefl _)
    · obtain ⟨call, rfl, hvalue, _⟩ := hbranch.opens hopens
      exact ⟨Nat.lt_of_lt_of_le (opening_value hmain ht).1 hcreated, by simp [hvalue]⟩

/-- What is closed was closed at the end of a `close_entry`. -/
theorem closed_recorded (h : (ledger settings).Reachable (s, g)) :
    ∀ e pools, (s.shared.heap e).pools.value = some pools → pools.writer.closed = true →
      g.closed e = true := by
  refine h.invariant (I := fun q => ∀ e pools, (q.1.shared.heap e).pools.value = some pools →
    pools.writer.closed = true → q.2.closed e = true) ?_ ?_
  · intro e pools hvalue
    exact absurd hvalue (by simp [ledger, StepSystem.observe, manager, Shared.new,
      DatabaseEntry.new])
  · rintro ⟨s, g⟩ a ⟨s', g'⟩ _ hI _ hs e pools hvalue' hclosed
    obtain ⟨hstep, rfl⟩ : s.step settings a = some s' ∧ g' = s.ledger g a :=
      StepSystem.observe_step.mp hs
    show (s.ledger g a).closed e = true
    rcases State.step_pools (g := g) hstep e with ⟨hvalue, hg⟩ | ⟨i, call, _, _, hvalue, _⟩ |
      ⟨i, choice, t, t', spawned, _, _, hbranch, hg⟩
    · rw [hg]
      exact hI e pools (hvalue ▸ hvalue') hclosed
    · exact absurd (hvalue.symm.trans hvalue') (by simp)
    · rw [hg]
      have hold (hg : g.closed e = true) : (t.ledger g choice).closed e = true := by
        simp [Task.ledger, hg]
      cases hbranch.pools e with
      | kept hvalue => exact hold (hI e pools (hvalue ▸ hvalue') hclosed)
      | opened _ hvalue =>
        obtain rfl := Option.some.inj (hvalue.symm.trans hvalue')
        exact absurd hclosed (by decide)
      | reset _ _ hvalue | created _ hvalue => exact absurd (hvalue.symm.trans hvalue') (by simp)
      | drained hvalue =>
        obtain ⟨old, hold', rfl⟩ := Option.map_eq_some_iff.mp (hvalue.symm.trans hvalue')
        exact hold (hI e old hold' hclosed)
      | shut hby => simp [Task.ledger, hby]

end Record

/-! ## Nothing gets lost -/

section Kept

variable {s s' : State} {a : Action}

theorem DatabaseEntry.alive_of_none {entry : DatabaseEntry} (h : entry.pools.value = none) :
    entry.alive = false := by
  simp [DatabaseEntry.alive, h]

/-- What a call of `close_all` has collected while it scans covers what is linked;
after it has cleared the map nothing is. -/
def CloseAllPc.Covers (σ : Shared) : CloseAllPc → Prop
  | .start => True
  | .scan sc es => ∀ name e, σ.entries.lookup name = some e →
    (name, e) ∈ sc.initial ∧ (name ∈ sc.seen → e ∈ es)
  | .clear es => ∀ name e, σ.entries.lookup name = some e → e ∈ es
  | .beginClose _ _ | .close _ _ _ | .done => ∀ name, σ.entries.lookup name = none

/-- Unbinding names does not uncover anything. -/
theorem CloseAllPc.Covers.mono {σ σ' : Shared} {pc : CloseAllPc} (h : pc.Covers σ)
    (hback : ∀ name e, σ'.entries.lookup name = some e → σ.entries.lookup name = some e) :
    pc.Covers σ' := by
  cases pc with
  | start => trivial
  | scan sc es | clear es => exact fun name e hl => h name e (hback name e hl)
  | beginClose | close | done =>
    intro name
    rw [Option.eq_none_iff_forall_ne_some]
    intro e hl
    exact absurd ((h name).symm.trans (hback name e hl)) (by simp)

theorem CloseAllPc.covers_next {σ : Shared} (h : ∀ name, σ.entries.lookup name = none)
    (es : List EntryId) : (CloseAllPc.next es).Covers σ := by
  cases es <;> exact h

theorem CloseAllBranch.covers {σ σ' : Shared} {pc pc' : CloseAllPc} {choice : Choice}
    (h : CloseAllBranch σ pc choice (σ', pc')) (hpc : pc.Covers σ) : pc'.Covers σ' := by
  cases h with
  | start =>
    intro name e hl
    exact ⟨mem_bindings.mpr hl, fun hseen => absurd hseen List.not_mem_nil⟩
  | visit hvisit =>
    obtain ⟨hl, _, rfl⟩ := Scan.visit_eq_some hvisit
    intro name e hname
    obtain ⟨hinit, hseen⟩ := hpc name e hname
    refine ⟨hinit, fun hmem => ?_⟩
    rcases List.mem_cons.mp hmem with rfl | hmem
    · obtain rfl := Option.some.inj (hname.symm.trans hl)
      exact List.mem_append_right _ (List.mem_singleton_self _)
    · exact List.mem_append_left _ (hseen hmem)
  | finish hfin =>
    intro name e hl
    obtain ⟨hinit, hseen⟩ := hpc name e hl
    exact hseen (Scan.seen_of_finished hfin hinit hl)
  | clear => exact CloseAllPc.covers_next (fun _ => AList.lookup_empty _) _
  | beginClose | beginCloseFailed => exact hpc
  | closeNext hclose =>
    intro name
    rw [hclose.map]
    exact hpc name
  | closeDone hclose =>
    refine CloseAllPc.covers_next (fun name => ?_) _
    rw [hclose.map]
    exact hpc name

/-- In a run of `main`, `close_all` has collected everything that is linked. -/
theorem closeAll_covers (h : (manager settings).ReachableVia mainStep s) :
    ∀ (i : Nat) (t : Task), s.tasks[i]? = some t → ∀ pc, t = .closeAll pc → pc.Covers s.shared := by
  refine h.invariant (I := fun s => ∀ (i : Nat) (t : Task), s.tasks[i]? = some t →
    ∀ pc, t = .closeAll pc → pc.Covers s.shared) ?_ ?_
  · intro i t hi
    exact absurd hi (by simp [manager])
  · intro s a s' hr hI _ hstep
    refine State.forall_step hstep hI ?_ ?_ ?_ ?_ ?_
    · rintro i t hi _ _ hcovers pc rfl
      apply (hcovers pc rfl).mono
      intro name e hl
      apply (State.step_lookup hstep hl).resolve_right
      intro hev
      exact no_insert hr (List.mem_of_getElem? hi) rfl name e hev.2
    · rintro i choice t t' spawned _ _ _ hbranch hcovers pc rfl
      cases hbranch with
      | closeAll h => exact h.covers (hcovers _ rfl)
    · rintro i t t' _ _ hbranch _ pc rfl
      exact absurd hbranch.isCloseAll (by simp [Task.isCloseAll])
    · rintro operation _ pc hpc
      cases operation with
      | acquire name =>
        simp only [Operation.task] at hpc
        split at hpc <;> simp at hpc
      | closeAll =>
        obtain rfl := Task.closeAll.inj hpc
        trivial
      | cleanupIdle | checkpointWal => simp [Operation.task] at hpc
    · rintro i e pc hpc
      exact absurd hpc (by simp)

theorem CloseAllBranch.clears {σ σ' : Shared} {pc pc' : CloseAllPc} {choice : Choice}
    (h : CloseAllBranch σ pc choice (σ', pc')) :
    σ'.entries = σ.entries ∨ ∃ es, pc = .clear es := by
  cases h with
  | clear => exact Or.inr ⟨_, rfl⟩
  | closeNext hclose | closeDone hclose => exact Or.inl hclose.map
  | start | visit | finish | beginClose | beginCloseFailed => exact Or.inl rfl

/-- An entry that a step of a task unlinks is one that the task has to close, or
one that gets lost. -/
theorem TaskBranch.linked {σ σ' : Shared} {t t' : Task} {choice : Choice} {spawned : List Task}
    (h : TaskBranch settings σ t choice (σ', t', spawned)) {name : String} {e : EntryId}
    (hl : σ.entries.lookup name = some e)
    (hvacant : ∀ n j, t.event σ choice = some (.insert n j) → σ.entries.lookup n = none)
    (hcovers : ∀ pc, t = .closeAll pc → pc.Covers σ) :
    σ'.entries.lookup name = some e ∨ e ∈ t.owes ∨ t.loses σ = some e := by
  cases h.map with
  | kept hmap => exact Or.inl (hmap ▸ hl)
  | inserted n hby hmap =>
    left
    rw [hmap, AList.lookup_insert_ne]
    · exact hl
    · rintro rfl
      exact absurd ((hvacant _ _ hby).symm.trans hl) (by simp)
  | removed n k hby hmap =>
    by_cases hname : name = n
    · subst hname
      right
      by_cases hk : e = k
      · exact Or.inl (hk ▸ Task.owes_of_removing hby)
      · right
        unfold Task.loses
        split
        · simp [Task.removing, Task.takePc] at hby
        · simp [hby, hl, hk]
    · left
      rw [hmap]
      exact (AList.lookup_erase_ne hname).trans hl
  | unlinked n k hby hmap =>
    obtain ⟨call, rfl, rfl⟩ := Task.unlink_of_event hby
    rw [hmap, lookup_eraseIf_of]
    split
    · rename_i hname
      obtain ⟨rfl, hk⟩ := hname
      obtain rfl := Option.some.inj (hl.symm.trans hk)
      exact Or.inr (Or.inr (by simp [Task.loses, hk]))
    · exact Or.inl hl
  | cleared hby =>
    cases h with
    | acquire | cleanupIdle | checkpointWal | closeEntry => simp at hby
    | closeAll h =>
      rcases h.clears with hmap | ⟨es, rfl⟩
      · exact Or.inl (hmap ▸ hl)
      · exact Or.inr (Or.inl (hcovers _ rfl name e hl))

/-- A future that is dropped opens nothing and unlinks nothing. -/
theorem TaskCancelBranch.frame {σ σ' : Shared} {t t' : Task} (h : TaskCancelBranch σ t (σ', t')) :
    σ'.entries = σ.entries ∧
      ∀ e, (σ'.heap e).alive = true → (σ.heap e).alive = true := by
  cases h with
  | acquire h =>
    cases h with
    | @openPools e =>
      refine ⟨rfl, fun j halive => ?_⟩
      rw [DatabaseEntry.alive, pools_setPools] at halive
      split at halive
      · simp at halive
      · exact halive
    | lock | yield | tenantSlot | ensureOpen => exact ⟨rfl, fun _ => id⟩
    | processSlot => exact ⟨rfl, fun j => by simp [DatabaseEntry.alive]⟩
  | cleanupIdle | checkpointWal => exact ⟨rfl, fun _ => id⟩

/-- An open entry is linked, or a task has to close it. -/
def State.Kept (s : State) (e : EntryId) : Prop :=
  (s.shared.heap e).alive = true → s.Linked e ∨ s.Owed e

theorem State.Kept.step {e : EntryId} (hkept : s.Kept e)
    (h : (manager settings).ReachableVia mainStep s) (hok : tidyStep s a)
    (hstep : s.step settings a = some s') : s'.Kept e := by
  intro halive'
  have hvacant (n : String) (j : EntryId) (hev : s.event a = some (.insert n j)) :=
    (insert_room h.reachable hev).1
  rcases State.step_cases hstep with ⟨operation, rfl, rfl⟩ |
    ⟨i, choice, t, σ', t', spawned, rfl, hi, hmove, hadv⟩ | ⟨i, t, σ', t', rfl, hi, hcancel, hadv⟩ |
    ⟨nowMs, rfl, rfl⟩
  · rcases hkept halive' with hlinked | ⟨u, hu, he⟩
    · exact Or.inl hlinked
    · exact Or.inr ⟨u, List.mem_append_left _ hu, he⟩
  · obtain ⟨rfl, _⟩ := State.advance_eq_some hadv
    have hbranch := Task.step_branch hmove
    obtain ⟨hopens, hloses, _⟩ := hok t hi
    have howed (he : e ∈ t.owes) : State.Owed ⟨σ', update s.tasks i t' spawned⟩ e := by
      rcases hbranch.owes he with ⟨u, hu, he⟩ | hdead
      · rcases List.mem_cons.mp hu with rfl | hu
        · exact ⟨u, mem_update_self hi, he⟩
        · exact ⟨u, List.mem_append_right _ hu, he⟩
      · exact absurd halive' (by simp [hdead])
    rcases (hbranch.pools e).alive_back halive' with halive | hby
    · rcases hkept halive with ⟨name, hl⟩ | ⟨u, hu, he⟩
      · rcases hbranch.linked hl (fun n j hev => hvacant n j (by simpa [State.event, hi] using hev))
            (fun pc hpc => closeAll_covers h i t hi pc hpc) with hl' | he | hlost
        · exact Or.inl ⟨name, hl'⟩
        · exact Or.inr (howed he)
        · have hdead := DatabaseEntry.alive_of_none (hloses e hlost)
          exact absurd halive (by simp [hdead])
      · obtain ⟨k, hk⟩ := List.mem_iff_getElem?.mp hu
        by_cases hki : k = i
        · subst hki
          obtain rfl := Option.some.inj (hk.symm.trans hi)
          exact Or.inr (howed he)
        · exact Or.inr ⟨u, mem_update_ne hki hk, he⟩
    · obtain ⟨call, rfl, _, hmap⟩ := hbranch.opens hby
      exact Or.inl ⟨_, hmap ▸ hopens e hby⟩
  · obtain ⟨rfl, _⟩ := State.advance_eq_some hadv
    obtain ⟨hmap, hback⟩ := (Task.cancel_branch hcancel).frame
    have halive := hback e halive'
    rcases hkept halive with ⟨name, hl⟩ | ⟨u, hu, he⟩
    · exact Or.inl ⟨name, hmap ▸ hl⟩
    · obtain ⟨k, hk⟩ := List.mem_iff_getElem?.mp hu
      by_cases hki : k = i
      · subst hki
        obtain rfl := Option.some.inj (hk.symm.trans hi)
        rcases hok u hi e he with hdead | ⟨v, hv, he⟩
        · exact absurd halive (by simp [hdead])
        · obtain ⟨j, hj, hv⟩ := List.mem_eraseIdx_iff_getElem?.mp hv
          exact Or.inr ⟨v, mem_update_ne hj hv, he⟩
      · exact Or.inr ⟨u, mem_update_ne hki hk, he⟩
  · exact hkept halive'

/-- In the runs that meet the condition, no open entry is lost. -/
theorem entries_kept
    (h : (manager settings).ReachableVia (fun s a => mainStep s a ∧ tidyStep s a) s) (e : EntryId) :
    s.Kept e := by
  refine h.invariant (I := fun s => s.Kept e) ?_ ?_
  · intro halive
    exact absurd halive (by simp [manager, Shared.new, DatabaseEntry.new, DatabaseEntry.alive])
  · intro s a s' hr hI hok hstep
    exact hI.step (hr.mono fun _ _ => And.left) hok.2 hstep

end Kept

/-! ## After `close_all` has returned -/

section Done

variable {s s' : State} {a : Action}

/-- After `close_all` is called, no entry is opened. -/
theorem alive_back (h : (manager settings).ReachableVia mainStep s) {t : Task} (ht : t ∈ s.tasks)
    (hcloseAll : t.isCloseAll = true) (hstep : s.step settings a = some s') {e : EntryId}
    (halive : (s'.shared.heap e).alive = true) : (s.shared.heap e).alive = true := by
  rcases State.step_cases hstep with ⟨operation, rfl, rfl⟩ |
    ⟨i, choice, u, σ', u', spawned, rfl, hi, hmove, hadv⟩ | ⟨i, u, σ', u', rfl, hi, hcancel, hadv⟩ |
    ⟨nowMs, rfl, rfl⟩
  · exact halive
  · obtain ⟨rfl, _⟩ := State.advance_eq_some hadv
    have hbranch := Task.step_branch hmove
    apply ((hbranch.pools e).alive_back halive).resolve_right
    intro hopens
    obtain ⟨call, rfl, _⟩ := hbranch.opens hopens
    have hrequest := no_request h ht hcloseAll (List.mem_of_getElem? hi)
    exact absurd hrequest (by simp [Task.isRequest])
  · obtain ⟨rfl, _⟩ := State.advance_eq_some hadv
    exact (Task.cancel_branch hcancel).frame.2 e halive
  · exact halive

/-- The step on which `close_all` returns. -/
theorem closeAllStep_returns {σ σ' : Shared} {pc : CloseAllPc} {choice : Choice}
    (h : closeAllStep σ pc choice = some (σ', .done)) :
    (Task.closeAll pc).returns σ = true := by
  have hgo : choice = .go := by
    cases choice with
    | go => rfl
    | visit name =>
      cases pc with
      | scan sc es =>
        simp only [closeAllStep] at h
        split at h <;> simp at h
      | start | clear | beginClose | close | done => simp [closeAllStep] at h
    | fail | count n => cases pc <;> simp [closeAllStep] at h
  subst hgo
  simp [Task.returns, h]

/-- At the step on which `close_all` returns, no entry stays open. -/
theorem State.Kept.returned
    (h : (manager settings).ReachableVia (fun s a => mainStep s a ∧ tidyStep s a) s) {i : Nat}
    {choice : Choice} {pc : CloseAllPc}
    (hok : mainStep s (.step i choice) ∧ tidyStep s (.step i choice))
    (hstep : s.step settings (.step i choice) = some s')
    (hi : s.tasks[i]? = some (.closeAll pc)) (hi' : s'.tasks[i]? = some (.closeAll .done))
    (e : EntryId) : (s'.shared.heap e).alive = false := by
  have hmain : (manager settings).ReachableVia mainStep s := h.mono fun _ _ => And.left
  have h' := h.step hok hstep
  obtain ⟨spawned, hmove, htasks⟩ := State.step_own hstep hi hi'
  obtain ⟨⟨σ', pc'⟩, hcall, heq⟩ := Option.map_eq_some_iff.mp hmove
  simp only [Prod.mk.injEq, Task.closeAll.injEq] at heq
  obtain ⟨rfl, rfl, rfl⟩ := heq
  by_contra halive'
  rw [Bool.not_eq_false] at halive'
  rcases entries_kept h' e halive' with ⟨name, hl⟩ | ⟨u, hu, he⟩
  · -- The map has been cleared.
    have hnone := closeAll_covers (h'.mono fun _ _ => And.left) i _ hi' _ rfl name
    exact absurd (hnone.symm.trans hl) (by simp)
  · rw [htasks] at hu
    rcases mem_update hu with rfl | ⟨j, hj, hju⟩ | hu
    · exact absurd he List.not_mem_nil
    · have hother : u ∈ s.tasks.eraseIdx i := List.mem_eraseIdx_iff_getElem?.mpr ⟨j, hj, hju⟩
      have hdead := (hok.2 _ hi).2.2 (closeAllStep_returns hcall) u hother e he
      have halive := alive_back hmain (List.mem_of_getElem? hi) rfl hstep halive'
      exact absurd halive (by simp [hdead])
    · exact absurd hu List.not_mem_nil

/-- When `close_all` has returned, no entry is open. -/
theorem done_closed
    (h : (manager settings).ReachableVia (fun s a => mainStep s a ∧ tidyStep s a) s) :
    ∀ (i : Nat) (t : Task), s.tasks[i]? = some t → t = .closeAll .done →
      ∀ e, (s.shared.heap e).alive = false := by
  refine h.invariant (I := fun s => ∀ (i : Nat) (t : Task), s.tasks[i]? = some t →
    t = .closeAll .done → ∀ e, (s.shared.heap e).alive = false) ?_ ?_
  · intro i t hi
    exact absurd hi (by simp [manager])
  · intro s a s' hr hI hok hstep
    refine State.forall_step hstep hI ?_ ?_ ?_ ?_ ?_
    · rintro i t hi _ _ hdead rfl e
      by_contra halive'
      rw [Bool.not_eq_false] at halive'
      have halive := alive_back (hr.mono fun _ _ => And.left) (List.mem_of_getElem? hi) rfl hstep
        halive'
      exact absurd halive (by simp [hdead rfl e])
    · rintro i choice t t' spawned rfl hi hi' hbranch _ rfl
      cases hbranch with
      | closeAll => exact State.Kept.returned hr hok hstep hi hi'
    · rintro i t t' _ _ hbranch _ rfl
      exact absurd hbranch.isCloseAll (by simp [Task.isCloseAll])
    · rintro operation _ htask
      exact absurd htask (by cases operation <;> simp [Operation.task]; split <;> simp)
    · rintro i e htask
      exact absurd htask (by simp)

end Done

/-! ## The law -/

/-- A graceful shutdown closes everything, in the runs of `main` in which no open
entry gets lost.  When `close_all` has returned, `close_entry` has run to its end
on every entry that `open_pools` has opened, whoever unlinked it, and its pools are
closed. -/
theorem shutdown_closes {s : State} {g : Ledger}
    (h : (ledger settings).ReachableVia (fun q a => mainStep q.1 a ∧ tidyStep q.1 a) (s, g))
    (hdone : Task.closeAll .done ∈ s.tasks) :
    ∀ e, g.opened e = true → g.closed e = true ∧ (s.shared.heap e).alive = false := by
  intro e hopened
  obtain ⟨i, hi⟩ := List.mem_iff_getElem?.mp hdone
  have hdead := done_closed (of_ledger _ h) i _ hi rfl e
  obtain ⟨pools, hvalue⟩ := Option.isSome_iff_exists.mp
    (opened_value (h.mono fun _ _ => And.left) e hopened).2
  refine ⟨closed_recorded h.reachable e pools hvalue ?_, hdead⟩
  simpa [DatabaseEntry.alive, hvalue] using hdead

/-- The next call is `close_all`, task `i`.  It runs to its end over a registry of
one open database. -/
def shutdownRound (i : Nat) (name : String) : List Action :=
  .start .closeAll :: goes i 1 ++ .step i (.visit name) :: goes i 8

/-- Database `a` is evicted for `b`, and its `close_entry`, task 2, runs to its end
before the shutdown. -/
def tidyShutdown : List Action :=
  coldAcquire 0 "a" 0 ++ dropLease 0 ++ evictingAcquire 1 "b" "a" ++ dropLease 1 ++ goes 2 5 ++
    shutdownRound 3 "b"

/-- Both databases are closed. -/
theorem shutdown_closes_tidy :
    ((ledger oneDatabase).play (fun q a => decide (mainStep q.1 a ∧ tidyStep q.1 a))
      tidyShutdown).2.closed 0 = true ∧
    ((ledger oneDatabase).play (fun q a => decide (mainStep q.1 a ∧ tidyStep q.1 a))
      tidyShutdown).2.closed 1 = true := by
  have hlaw := shutdown_closes (StepSystem.reachable_play (M := ledger oneDatabase)
    (fun _ _ h => of_decide_eq_true h) tidyShutdown) (by decide)
  exact ⟨(hlaw 0 (by decide)).1, (hlaw 1 (by decide)).1⟩

/-! ## Without the condition -/

/-- The same, but the `close_entry` of `a` has not run when `close_all` returns. -/
def hastyShutdown : List Action :=
  coldAcquire 0 "a" 0 ++ dropLease 0 ++ evictingAcquire 1 "b" "a" ++ dropLease 1 ++
    shutdownRound 3 "b"

/-- `cleanup_idle`, task 1, has unlinked `a` and waits for the readers to close when
the shutdown aborts it.  `close_all` finds nothing. -/
def abortedCleanup : List Action :=
  coldAcquire 0 "a" 0 ++ dropLease 0 ++ .clock 400000 :: .start .cleanupIdle ::
    cleanupRound 1 "a" 6 ++ .cancel 1 :: .start .closeAll :: goes 2 3

/-- In both runs `close_all` has returned and `a` is still open.  In the second one
no task is left that would close it. -/
theorem shutdown_leaves_open :
    (∃ p : State × Ledger, (ledger oneDatabase).ReachableVia (fun q a => mainStep q.1 a) p ∧
      Task.closeAll .done ∈ p.1.tasks ∧ p.2.opened 0 = true ∧ p.2.closed 0 = false ∧
      (p.1.shared.heap 0).alive = true) ∧
    (∃ p : State × Ledger, (ledger .default).ReachableVia (fun q a => mainStep q.1 a) p ∧
      Task.closeAll .done ∈ p.1.tasks ∧ p.2.opened 0 = true ∧ p.2.closed 0 = false ∧
      (p.1.shared.heap 0).alive = true ∧ ∀ t ∈ p.1.tasks, t.owes = []) :=
  ⟨⟨_, StepSystem.reachable_play (M := ledger oneDatabase)
      (fun _ _ h => of_decide_eq_true h) hastyShutdown, by decide, by decide, by decide, by decide⟩,
    ⟨_, StepSystem.reachable_play (M := ledger .default)
      (fun _ _ h => of_decide_eq_true h) abortedCleanup,
      by decide, by decide, by decide, by decide, by decide⟩⟩

end Tinkiva.Manager
