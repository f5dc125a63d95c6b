import Tinkiva.Manager.Refinement

/-!
# When an entry was last used

`last_used_ms` of an entry is written when the entry is created, when a request
gets its lease, and at the start of every drop of a lease.  The drop is the same
code for a request and for `checkpoint_wal`.

`history` runs the manager with a passive record of the clock values behind
these stores: for each entry, the drops of request leases (and its creation) on
one side, the drops of the leases of `checkpoint_wal` on the other.
`reachable_recency` says that the record explains `last_used_ms`: while no
request uses an entry, `last_used_ms` is at most the greater of the two.
-/

namespace Tinkiva.Manager

open Tinkiva.Config ConcurrentMap TaskPool

variable {settings : DatabaseSettings}

/-! ## The record -/

/-- For each entry, the greatest clock value that the drop of a request lease or
the creation of the entry has read, and the greatest one that the drop of a lease
of `checkpoint_wal` has read. -/
structure Usage where
  request : EntryId → Nat
  checkpoint : EntryId → Nat

namespace Usage

def none : Usage := ⟨fun _ => 0, fun _ => 0⟩

def recordRequest (u : Usage) (e : EntryId) (nowMs : Nat) : Usage :=
  { u with request := Function.update u.request e (max (u.request e) nowMs) }

def recordCheckpoint (u : Usage) (e : EntryId) (nowMs : Nat) : Usage :=
  { u with checkpoint := Function.update u.checkpoint e (max (u.checkpoint e) nowMs) }

/-- The greatest clock value recorded for an entry. -/
def last (u : Usage) (e : EntryId) : Nat := max (u.request e) (u.checkpoint e)

theorem last_recordRequest (u : Usage) (e j : EntryId) (nowMs : Nat) :
    (u.recordRequest e nowMs).last j = if j = e then max (u.last e) nowMs else u.last j := by
  by_cases h : j = e
  · subst h
    simp only [last, recordRequest, Function.update_self, if_true]
    omega
  · simp [last, recordRequest, h]

theorem last_recordCheckpoint (u : Usage) (e j : EntryId) (nowMs : Nat) :
    (u.recordCheckpoint e nowMs).last j = if j = e then max (u.last e) nowMs else u.last j := by
  by_cases h : j = e
  · subst h
    simp only [last, recordCheckpoint, Function.update_self, if_true]
    omega
  · simp [last, recordCheckpoint, h]

end Usage

/-- What one step of a task adds to the record. -/
def Task.usage (σ : Shared) (u : Usage) : Task → Choice → Usage
  | .acquire _ (.insert nowMs), .go => u.recordRequest σ.created nowMs
  | .acquire _ (.drop e _ _ .touch), .go => u.recordRequest e σ.now
  | .checkpointWal (.drop e .touch _ _), .go => u.recordCheckpoint e σ.now
  | .checkpointWal (.abort e .touch), .go => u.recordCheckpoint e σ.now
  | _, _ => u

/-- What one step of the system adds to the record. -/
def State.usage (s : State) (u : Usage) : Action → Usage
  | .step i choice =>
    match s.tasks[i]? with
    | none => u
    | some t => t.usage s.shared u choice
  | _ => u

/-- The manager, and the record of its run. -/
def history (settings : DatabaseSettings) : StepSystem (State × Usage) Action :=
  (manager settings).observe .none fun u s a _ => s.usage u a

/-- A recorded run of the manager is a run of the manager. -/
theorem of_history (ok : State → Action → Prop) {p : State × Usage}
    (h : (history settings).ReachableVia (fun q a => ok q.1 a) p) :
    (manager settings).ReachableVia ok p.1 :=
  StepSystem.ReachableVia.of_observe ok h

/-- The record only grows. -/
theorem Task.last_usage (σ : Shared) (u : Usage) (t : Task) (choice : Choice) (e : EntryId) :
    u.last e ≤ (t.usage σ u choice).last e := by
  unfold Task.usage
  split
  · rw [Usage.last_recordRequest]
    split <;> simp_all
  · rw [Usage.last_recordRequest]
    split <;> simp_all
  · rw [Usage.last_recordCheckpoint]
    split <;> simp_all
  · rw [Usage.last_recordCheckpoint]
    split <;> simp_all
  · exact Nat.le_refl _

/-! ## The stores of a task -/

/-- The store that the drop of a lease does next. -/
def Task.dropStore : Task → Option (EntryId × Nat)
  | .acquire _ (.drop e _ _ (.store nowMs)) | .checkpointWal (.drop e (.store nowMs) _ _)
  | .checkpointWal (.abort e (.store nowMs)) => some (e, nowMs)
  | _ => none

/-- The entry that a request uses: the drop of its lease has not done its store
yet. -/
def Task.uses : Task → Option EntryId
  | .acquire _ (.tenantSlot e) | .acquire _ (.processSlot e) | .acquire _ (.ensureOpen e)
  | .acquire _ (.openPools e) | .acquire _ (.removeIf e) | .acquire _ (.touch e)
  | .acquire _ (.store e _) | .acquire _ (.leased e) | .acquire _ (.drop e _ _ .touch)
  | .acquire _ (.drop e _ _ (.store _)) => some e
  | _ => none

theorem Task.lease_of_dropStore {t : Task} {e : EntryId} {nowMs : Nat}
    (h : t.dropStore = some (e, nowMs)) : t.lease = some e := by
  unfold Task.dropStore at h
  split at h
  all_goals first
    | (obtain ⟨rfl, rfl⟩ := Prod.mk.inj (Option.some.inj h); rfl)
    | simp at h

theorem Task.lease_of_uses {t : Task} {e : EntryId} (h : t.uses = some e) :
    t.lease = some e := by
  unfold Task.uses at h
  split at h
  all_goals first
    | exact h
    | simp at h

section Heap

variable (σ : Shared) (e j : EntryId)

@[simp] theorem lastUsed_setLeases (word : Nat) :
    ((σ.setLeases e word).heap j).lastUsedMs = (σ.heap j).lastUsedMs := by
  rw [Shared.setLeases, Shared.heap_modify]
  split <;> simp_all

@[simp] theorem lastUsed_fetchSub :
    ((σ.fetchSub e).heap j).lastUsedMs = (σ.heap j).lastUsedMs :=
  lastUsed_setLeases ..

@[simp] theorem lastUsed_setPools (cell : OnceCell Pools) :
    ((σ.setPools e cell).heap j).lastUsedMs = (σ.heap j).lastUsedMs := by
  rw [Shared.setPools, Shared.heap_modify]
  split <;> simp_all

@[simp] theorem lastUsed_updatePools (f : Pools → Pools) :
    ((σ.updatePools e f).heap j).lastUsedMs = (σ.heap j).lastUsedMs :=
  lastUsed_setPools ..

@[simp] theorem lastUsed_takeTenantSlot :
    ((σ.takeTenantSlot e).heap j).lastUsedMs = (σ.heap j).lastUsedMs := by
  rw [Shared.takeTenantSlot, Shared.heap_modify]
  split <;> simp_all

@[simp] theorem lastUsed_giveTenantSlot :
    ((σ.giveTenantSlot e).heap j).lastUsedMs = (σ.heap j).lastUsedMs := by
  rw [Shared.giveTenantSlot, Shared.heap_modify]
  split <;> simp_all

@[simp] theorem lastUsed_giveSlots :
    ((σ.giveSlots e).heap j).lastUsedMs = (σ.heap j).lastUsedMs :=
  lastUsed_giveTenantSlot ..

theorem lastUsed_setLastUsed (nowMs : Nat) :
    ((σ.setLastUsed e nowMs).heap j).lastUsedMs =
      if j = e then nowMs else (σ.heap j).lastUsedMs := by
  rw [Shared.setLastUsed, Shared.heap_modify]
  split <;> rfl

theorem lastUsed_insertNew (entry : DatabaseEntry) :
    ((σ.insertNew entry).heap j).lastUsedMs =
      if j = σ.created then entry.lastUsedMs else (σ.heap j).lastUsedMs := by
  simp only [Shared.insertNew, Function.update_apply]
  split <;> rfl

end Heap

theorem TakeBranch.lastUsed {σ σ' : Shared} {pc : TakePc} {result : TakeStep}
    (h : TakeBranch σ pc (σ', result)) (j : EntryId) :
    (σ'.heap j).lastUsedMs = (σ.heap j).lastUsedMs := by
  cases h with
  | vacant | found | leased | remove => rfl
  | closed => exact lastUsed_setLeases ..

theorem CloseBranch.lastUsed {σ σ' : Shared} {e : EntryId} {pc : ClosePc} {pc' : Option ClosePc}
    (h : CloseBranch σ e pc (σ', pc')) (j : EntryId) :
    (σ'.heap j).lastUsedMs = (σ.heap j).lastUsedMs := by
  cases h with
  | unopened | opened | optimize | checkpoint => rfl
  | readers | writer => exact lastUsed_updatePools ..

theorem EvictBranch.lastUsed {σ σ' : Shared} {pc : EvictPc} {choice : Choice}
    {result : EvictStep} (h : EvictBranch σ pc choice (σ', result)) (j : EntryId) :
    (σ'.heap j).lastUsedMs = (σ.heap j).lastUsedMs := by
  cases h with
  | visitLeased | visitIdle | noCandidate | oldest | older | newer => rfl
  | takeNext htake | takeNone htake | takeSome htake => exact htake.lastUsed j

/-! ## What a step does to `last_used_ms` -/

/-- What a step of task `t` to `t'` does to `last_used_ms` of an entry.  It keeps
the value, and a request that uses the entry goes on using it; or it is the store
at the end of an `acquire`, by a request that uses the entry; or it is the store
of a drop; or it creates the entry.  The value that a drop has read is in the
record. -/
structure Task.Stores (σ σ' : Shared) (u' : Usage) (t t' : Task) (e : EntryId) : Prop where
  lastUsed :
    ((σ'.heap e).lastUsedMs = (σ.heap e).lastUsedMs ∧ (t.uses = some e → t'.uses = some e)) ∨
    (t.uses = some e ∧ t'.uses = some e) ∨
    t.dropStore = some (e, (σ'.heap e).lastUsedMs) ∨
    (e = σ.created ∧ (σ'.heap e).lastUsedMs ≤ u'.last e)
  recorded : ∀ nowMs, t'.dropStore = some (e, nowMs) → nowMs ≤ u'.last e

/-- A step that stores nothing and reads no clock for a drop. -/
theorem Task.Stores.kept {σ σ' : Shared} {u' : Usage} {t t' : Task} {e : EntryId}
    (hheap : (σ'.heap e).lastUsedMs = (σ.heap e).lastUsedMs)
    (huses : t.uses = some e → t'.uses = some e) (hdrop : t'.dropStore = none) :
    t.Stores σ σ' u' t' e :=
  ⟨Or.inl ⟨hheap, huses⟩, fun nowMs h => by simp [hdrop] at h⟩

/-- The store of a drop. -/
theorem Task.Stores.stored {σ : Shared} {u' : Usage} {t t' : Task} {e j : EntryId} {nowMs : Nat}
    (hstore : t.dropStore = some (e, nowMs)) (huses : ∀ k, t.uses = some k → k = e)
    (hdrop : t'.dropStore = none) : t.Stores σ (σ.setLastUsed e nowMs) u' t' j := by
  by_cases hj : j = e
  · subst hj
    refine ⟨Or.inr (Or.inr (Or.inl ?_)), fun nowMs h => by simp [hdrop] at h⟩
    rw [hstore, lastUsed_setLastUsed, if_pos rfl]
  · exact .kept (by rw [lastUsed_setLastUsed, if_neg hj]) (fun h => absurd (huses j h) hj) hdrop

theorem AcquireBranch.stores {σ σ' : Shared} {u : Usage} {call call' : Call}
    {pc pc' : AcquirePc} {choice : Choice} {spawned : Option EntryId}
    (h : AcquireBranch settings σ call pc choice (σ', call', pc', spawned)) (j : EntryId) :
    (Task.acquire call pc).Stores σ σ' ((Task.acquire call pc).usage σ u choice)
      (.acquire call' pc') j := by
  cases h with
  | evictNext hevict | evictNone hevict | evictSome hevict =>
    exact .kept (hevict.lastUsed j) (by simp [Task.uses]) rfl
  | @insert nowMs =>
    have hheap := lastUsed_insertNew σ j
      (DatabaseEntry.new call.name settings.maxConcurrentRequestsPerDatabase nowMs)
    split at hheap
    · rename_i hj
      refine ⟨Or.inr (Or.inr (Or.inr ⟨hj, ?_⟩)), by simp [Task.dropStore]⟩
      rw [Task.usage, Usage.last_recordRequest, if_pos hj]
      exact Nat.le_trans (Nat.le_of_eq hheap) (Nat.le_max_right _ _)
    · exact .kept hheap (by simp [Task.uses]) rfl
  | @store e nowMs =>
    by_cases hj : j = e
    · exact ⟨Or.inr (Or.inl (by simp [Task.uses, hj])), by simp [Task.dropStore]⟩
    · exact .kept (by rw [lastUsed_setLastUsed, if_neg hj]) (by simp [Task.uses]) rfl
  | dropNext hdrop =>
    cases hdrop with
    | touch =>
      refine ⟨Or.inl ⟨rfl, by simp [Task.uses]⟩, ?_⟩
      simp +contextual [Task.dropStore, Task.usage, Usage.last_recordRequest]
    | store => exact .stored rfl (by simp [Task.uses, eq_comm]) rfl
  | dropSlots hdrop | dropDone hdrop =>
    cases hdrop with
    | fetchSub => exact .kept (lastUsed_fetchSub ..) (by simp [Task.uses]) rfl
  | _ =>
    -- The other branches store to no `last_used_ms`.
    exact .kept (by simp [Shared.recordShed]) (by simp [Task.uses]) rfl

theorem dropStore_next (n : Nat) (es : List EntryId) :
    (Task.checkpointWal (.next n es)).dropStore = none := by
  cases es <;> rfl

/-- What `checkpoint_wal` does to `last_used_ms`: only its drops store. -/
theorem CheckpointBranch.stores {σ σ' : Shared} {u : Usage} {pc pc' : CheckpointPc}
    {choice : Choice} (h : CheckpointBranch σ pc choice (σ', pc')) (j : EntryId) :
    (Task.checkpointWal pc).Stores σ σ' ((Task.checkpointWal pc).usage σ u choice)
      (.checkpointWal pc') j := by
  cases h with
  | dropNext hdrop | abortNext hdrop =>
    cases hdrop with
    | touch =>
      refine ⟨Or.inl ⟨rfl, by simp [Task.uses]⟩, ?_⟩
      simp +contextual [Task.dropStore, Task.usage, Usage.last_recordCheckpoint]
    | store => exact .stored rfl (by simp [Task.uses]) rfl
  | dropDone hdrop =>
    cases hdrop with
    | fetchSub => exact .kept (lastUsed_fetchSub ..) (by simp [Task.uses]) (dropStore_next ..)
  | abortDone hdrop =>
    cases hdrop with
    | fetchSub => exact .kept (lastUsed_fetchSub ..) (by simp [Task.uses]) rfl
  | finish | leaseRefused => exact .kept rfl (by simp [Task.uses]) (dropStore_next ..)
  | _ => exact .kept (by simp [Shared.recordCheckpoints]) (by simp [Task.uses]) rfl

theorem CleanupBranch.lastUsed {σ σ' : Shared} {pc pc' : CleanupPc} {choice : Choice}
    (h : CleanupBranch settings σ pc choice (σ', pc')) (j : EntryId) :
    (σ'.heap j).lastUsedMs = (σ.heap j).lastUsedMs := by
  cases h with
  | takeNext htake | takeNone htake | takeSome htake => exact htake.lastUsed j
  | closeNext hclose | closeDone hclose => exact hclose.lastUsed j
  | _ => rfl

theorem CloseAllBranch.lastUsed {σ σ' : Shared} {pc pc' : CloseAllPc} {choice : Choice}
    (h : CloseAllBranch σ pc choice (σ', pc')) (j : EntryId) :
    (σ'.heap j).lastUsedMs = (σ.heap j).lastUsedMs := by
  cases h with
  | beginClose => exact lastUsed_setLeases ..
  | closeNext hclose | closeDone hclose => exact hclose.lastUsed j
  | _ => rfl

/-- The one spec of a step of a task, for `last_used_ms`. -/
theorem Task.step_stores {σ σ' : Shared} {u : Usage} {t t' : Task} {choice : Choice}
    {spawned : List Task} (h : t.step settings σ choice = some (σ', t', spawned))
    (j : EntryId) : t.Stores σ σ' (t.usage σ u choice) t' j := by
  cases Task.step_branch h with
  | acquire hbranch => exact hbranch.stores j
  | cleanupIdle hbranch => exact .kept (hbranch.lastUsed j) (by simp [Task.uses]) rfl
  | checkpointWal hbranch => exact hbranch.stores j
  | closeEntry hbranch => exact .kept (hbranch.lastUsed j) (by simp [Task.uses]) rfl
  | closeAll hbranch => exact .kept (hbranch.lastUsed j) (by simp [Task.uses]) rfl

/-- Dropping a future stores nothing. -/
theorem Task.cancel_stores {σ σ' : Shared} {u : Usage} {t t' : Task}
    (h : t.cancel σ = some (σ', t')) (j : EntryId) : t.Stores σ σ' u t' j := by
  cases Task.cancel_branch h with
  | acquire hbranch => cases hbranch <;> exact .kept (by simp) (by simp [Task.uses]) rfl
  | cleanupIdle | checkpointWal => exact .kept rfl (by simp [Task.uses]) rfl

/-- A task that does not hold a lease on an entry leaves its `last_used_ms`
alone. -/
theorem Task.Stores.lastUsed_eq {σ σ' : Shared} {u' : Usage} {t t' : Task} {e : EntryId}
    (h : t.Stores σ σ' u' t' e) (hlease : t.lease ≠ some e) (he : e < σ.created) :
    (σ'.heap e).lastUsedMs = (σ.heap e).lastUsedMs := by
  rcases h.lastUsed with ⟨heq, _⟩ | ⟨huses, _⟩ | hdrop | ⟨rfl, _⟩
  · exact heq
  · exact absurd (Task.lease_of_uses huses) hlease
  · exact absurd (Task.lease_of_dropStore hdrop) hlease
  · exact absurd he (Nat.lt_irrefl _)

/-! ## The record explains `last_used_ms` -/

/-- What the drops in progress have read is recorded, and so is the
`last_used_ms` of every entry that no request uses. -/
structure Recency (s : State) (u : Usage) : Prop where
  recorded : ∀ t ∈ s.tasks, ∀ e nowMs, t.dropStore = some (e, nowMs) → nowMs ≤ u.last e
  lastUsed : ∀ e, (s.shared.heap e).lastUsedMs ≤ u.last e ∨ ∃ t ∈ s.tasks, t.uses = some e

/-- The step of one task keeps the record right. -/
theorem Recency.advance {s : State} {u u' : Usage} (h : Recency s u) {i : Nat} {t t' : Task}
    {σ' : Shared} {spawned : List Task} (hi : s.tasks[i]? = some t)
    (hstores : ∀ e, t.Stores s.shared σ' u' t' e) (hlast : ∀ e, u.last e ≤ u'.last e)
    (hspawned : ∀ v ∈ spawned, v.dropStore = none) :
    Recency ⟨σ', update s.tasks i t' spawned⟩ u' where
  recorded := forall_update (fun e => (hstores e).recorded)
    (fun j v _ hj e nowMs hv =>
      Nat.le_trans (h.recorded v (List.mem_of_getElem? hj) e nowMs hv) (hlast e))
    fun v hv e nowMs hdrop => by simp [hspawned v hv] at hdrop
  lastUsed e := by
    -- A request that uses the entry and is not the one that moves goes on.
    have hother : ∀ v ∈ s.tasks, v.uses = some e → (t.uses = some e → t'.uses = some e) →
        ∃ v ∈ update s.tasks i t' spawned, v.uses = some e := by
      intro v hv huses hself
      obtain ⟨j, hj⟩ := List.mem_iff_getElem?.mp hv
      by_cases hji : j = i
      · subst hji
        obtain rfl := Option.some.inj (hi.symm.trans hj)
        exact ⟨t', mem_update_self hi, hself huses⟩
      · exact ⟨v, mem_update_ne hji hj, huses⟩
    rcases (hstores e).lastUsed with ⟨heq, hself⟩ | ⟨_, huses⟩ | hdrop | ⟨_, hle⟩
    · rcases h.lastUsed e with hle | ⟨v, hv, huses⟩
      · exact Or.inl (Nat.le_trans (Nat.le_of_eq heq) (Nat.le_trans hle (hlast e)))
      · exact Or.inr (hother v hv huses hself)
    · exact Or.inr ⟨t', mem_update_self hi, huses⟩
    · exact Or.inl (Nat.le_trans (h.recorded t (List.mem_of_getElem? hi) e _ hdrop) (hlast e))
    · exact Or.inl hle

theorem Operation.task_idle (operation : Operation) :
    operation.task.dropStore = none ∧ operation.task.lease = none ∧
      operation.task.takePc = none := by
  cases operation with
  | acquire name =>
    simp only [Operation.task]
    split <;> exact ⟨rfl, rfl, rfl⟩
  | cleanupIdle | checkpointWal | closeAll => exact ⟨rfl, rfl, rfl⟩

theorem Task.spawned_closeEntry {σ σ' : Shared} {t t' : Task} {choice : Choice}
    {spawned : List Task} (h : t.step settings σ choice = some (σ', t', spawned)) :
    ∀ v ∈ spawned, ∃ e pc, v = .closeEntry e pc := by
  intro v hv
  cases Task.step_branch h with
  | acquire =>
    obtain ⟨j, _, rfl⟩ := List.mem_map.mp hv
    exact ⟨j, _, rfl⟩
  | cleanupIdle | checkpointWal | closeEntry | closeAll => exact absurd hv List.not_mem_nil

/-- A step of the system keeps the record right. -/
theorem Recency.step {s s' : State} {u : Usage} {a : Action} (h : Recency s u)
    (hs : s.step settings a = some s') : Recency s' (s.usage u a) := by
  rcases State.step_cases hs with ⟨operation, rfl, rfl⟩ |
    ⟨i, choice, t, σ', t', spawned, rfl, hi, hstep, hadv⟩ | ⟨i, t, σ', t', rfl, hi, hcancel, hadv⟩ |
    ⟨nowMs, rfl, rfl⟩
  · constructor
    · intro t ht e nowMs hdrop
      rcases List.mem_append.mp ht with ht | ht
      · exact h.recorded t ht e nowMs hdrop
      · obtain rfl := List.mem_singleton.mp ht
        simp [operation.task_idle.1] at hdrop
    · intro e
      exact (h.lastUsed e).imp_right fun ⟨t, ht, huses⟩ =>
        ⟨t, List.mem_append_left _ ht, huses⟩
  · obtain ⟨rfl, _⟩ := State.advance_eq_some hadv
    have husage : s.usage u (.step i choice) = t.usage s.shared u choice := by
      simp [State.usage, hi]
    rw [husage]
    apply h.advance hi (Task.step_stores hstep) (t.last_usage s.shared u choice)
    intro v hv
    obtain ⟨e, pc, rfl⟩ := Task.spawned_closeEntry hstep v hv
    rfl
  · obtain ⟨rfl, _⟩ := State.advance_eq_some hadv
    exact h.advance hi (Task.cancel_stores hcancel) (fun _ => Nat.le_refl _)
      fun v hv => absurd hv List.not_mem_nil
  · exact ⟨h.recorded, h.lastUsed⟩

/-- The record is right in every run. -/
theorem reachable_recency {p : State × Usage} (h : (history settings).Reachable p) :
    Recency p.1 p.2 := by
  refine h.invariant (I := fun p => Recency p.1 p.2) ⟨fun _ ht => absurd ht List.not_mem_nil,
    fun _ => Or.inl (Nat.zero_le _)⟩ fun p a p' _ hI _ hstep => ?_
  obtain ⟨hs, hu⟩ := StepSystem.observe_step.mp hstep
  rw [hu]
  exact hI.step hs

/-- The `last_used_ms` of an entry without a lease is in the record. -/
theorem lastUsed_le_last {s : State} {u : Usage} (h : (history settings).Reachable (s, u))
    {e : EntryId} (hnone : s.holders e = 0) : (s.shared.heap e).lastUsedMs ≤ u.last e := by
  rcases (reachable_recency h).lastUsed e with hle | ⟨t, ht, huses⟩
  · exact hle
  · exact absurd hnone (Nat.ne_of_gt (holders_pos ht (Task.lease_of_uses huses)))

end Tinkiva.Manager
