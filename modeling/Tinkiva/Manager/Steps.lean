import Tinkiva.Manager.Leases
import Tinkiva.Manager.Recency

/-!
# What one step can do

The laws about an eviction, an idle round or a shutdown are about an entry that
one task has in hand while the others go on.  This file says once what a step can
do to an entry (`EntryStep`) and to the bindings (`MapStep`), and which task does
it.  `State.forall_step` is the rule that they are used with: what holds of every
task still holds after a step, if the task that moved and the ones that did not
keep it.
-/

namespace Tinkiva.Manager

open Tinkiva.Config ConcurrentMap TaskPool SentinelCounter

variable {settings : DatabaseSettings}

/-! ## The lease counts -/

section Word

variable (σ : Shared) (e j : EntryId)

theorem word_setLeases (word : Nat) :
    ((σ.setLeases e word).heap j).activeLeases =
      if j = e then word else (σ.heap j).activeLeases := by
  rw [Shared.setLeases, Shared.heap_modify]
  split <;> rfl

@[simp] theorem word_setLastUsed (nowMs : Nat) :
    ((σ.setLastUsed e nowMs).heap j).activeLeases = (σ.heap j).activeLeases := by
  rw [Shared.setLastUsed, Shared.heap_modify]
  split <;> simp_all

@[simp] theorem word_setPools (cell : OnceCell Pools) :
    ((σ.setPools e cell).heap j).activeLeases = (σ.heap j).activeLeases := by
  rw [Shared.setPools, Shared.heap_modify]
  split <;> simp_all

@[simp] theorem word_updatePools (f : Pools → Pools) :
    ((σ.updatePools e f).heap j).activeLeases = (σ.heap j).activeLeases :=
  word_setPools ..

@[simp] theorem word_takeTenantSlot :
    ((σ.takeTenantSlot e).heap j).activeLeases = (σ.heap j).activeLeases := by
  rw [Shared.takeTenantSlot, Shared.heap_modify]
  split <;> simp_all

@[simp] theorem word_giveTenantSlot :
    ((σ.giveTenantSlot e).heap j).activeLeases = (σ.heap j).activeLeases := by
  rw [Shared.giveTenantSlot, Shared.heap_modify]
  split <;> simp_all

@[simp] theorem word_giveSlots :
    ((σ.giveSlots e).heap j).activeLeases = (σ.heap j).activeLeases :=
  word_giveTenantSlot ..

theorem word_insertNew (entry : DatabaseEntry) :
    ((σ.insertNew entry).heap j).activeLeases =
      if j = σ.created then entry.activeLeases else (σ.heap j).activeLeases := by
  simp only [Shared.insertNew, Function.update_apply]
  split <;> rfl

end Word

/-! ## What a task does to an entry -/

/-- The entry whose lease count a step of the task raises. -/
def Task.leasing (σ : Shared) : Task → Choice → Option EntryId
  | .acquire _ (.lease e pc), choice | .checkpointWal (.lease e pc _ _), choice =>
    match leaseStep (σ.heap e).activeLeases pc choice with
    | some (.leased _) => some e
    | some (.next _) | some .refused | none => none
  | _, _ => none

/-- The entry whose lease count the next step of the task lowers. -/
def Task.releasing : Task → Option EntryId
  | .acquire _ (.drop e _ _ .fetchSub) | .checkpointWal (.drop e .fetchSub _ _)
  | .checkpointWal (.abort e .fetchSub) => some e
  | _ => none

/-- What a step of task `t` to `t'` does to the lease count and the `last_used_ms`
of an entry. -/
inductive EntryStep (σ σ' : Shared) (t t' : Task) (choice : Choice) (j : EntryId) : Prop where
  | kept (hword : (σ'.heap j).activeLeases = (σ.heap j).activeLeases)
      (hlast : (σ'.heap j).lastUsedMs = (σ.heap j).lastUsedMs)
  | leased (hby : t.leasing σ choice = some j) (hlease : t'.lease = some j)
      (hword : (σ'.heap j).activeLeases = (σ.heap j).activeLeases + 1)
      (hlast : (σ'.heap j).lastUsedMs = (σ.heap j).lastUsedMs)
  | released (hby : t.releasing = some j)
      (hword : (σ'.heap j).activeLeases =
        fetchSub CLOSED (σ.heap j).activeLeases)
      (hlast : (σ'.heap j).lastUsedMs = (σ.heap j).lastUsedMs)
  | closed (hby : (∃ name, t.taking = some (name, j)) ∨ t.isCloseAll = true)
      (hidle : (σ.heap j).activeLeases = 0) (hword : (σ'.heap j).activeLeases = CLOSED)
      (hlast : (σ'.heap j).lastUsedMs = (σ.heap j).lastUsedMs)
  | stored (hlease : t'.lease = some j)
      (hword : (σ'.heap j).activeLeases = (σ.heap j).activeLeases)
  | created (name : String) (hby : t.event σ choice = some (.insert name j))
      (hnew : j = σ.created) (hword : (σ'.heap j).activeLeases = 0)

/-- A step of `take` closes the entry that it has looked up, or leaves every entry
alone. -/
theorem TakeBranch.entry {σ σ' : Shared} {pc : TakePc} {result : TakeStep}
    (h : TakeBranch σ pc (σ', result)) (j : EntryId) :
    (σ'.heap j).lastUsedMs = (σ.heap j).lastUsedMs ∧
      ((σ'.heap j).activeLeases = (σ.heap j).activeLeases ∨
        ((∃ name, pc = .beginClose name j) ∧ (σ.heap j).activeLeases = 0 ∧
          (σ'.heap j).activeLeases = CLOSED)) := by
  refine ⟨h.lastUsed j, ?_⟩
  cases h with
  | vacant | found | leased | remove => exact Or.inl rfl
  | @closed name e hw =>
    by_cases hj : j = e
    · subst hj
      exact Or.inr ⟨⟨name, rfl⟩, hw, by rw [word_setLeases, if_pos rfl]⟩
    · left
      rw [word_setLeases, if_neg hj]

/-- The same for a step of `evict_oldest_idle`. -/
theorem EvictBranch.entry {σ σ' : Shared} {pc : EvictPc} {choice : Choice} {result : EvictStep}
    (h : EvictBranch σ pc choice (σ', result)) (j : EntryId) :
    (σ'.heap j).lastUsedMs = (σ.heap j).lastUsedMs ∧
      ((σ'.heap j).activeLeases = (σ.heap j).activeLeases ∨
        ((∃ name, pc = .take (.beginClose name j)) ∧ (σ.heap j).activeLeases = 0 ∧
          (σ'.heap j).activeLeases = CLOSED)) := by
  cases h with
  | visitLeased | visitIdle | noCandidate | oldest | older | newer =>
    exact ⟨rfl, Or.inl rfl⟩
  | takeNext htake | takeNone htake | takeSome htake =>
    obtain ⟨hlast, hword | ⟨⟨name, rfl⟩, hw, hword⟩⟩ := htake.entry j
    · exact ⟨hlast, Or.inl hword⟩
    · exact ⟨hlast, Or.inr ⟨⟨name, rfl⟩, hw, hword⟩⟩

/-- A step of the drop of a lease. -/
theorem DropBranch.entry {σ σ' : Shared} {t t' : Task} {choice : Choice} {e : EntryId}
    {pc : DropPc} {pc' : Option DropPc} (h : DropBranch σ e pc (σ', pc'))
    (hby : pc = .fetchSub → t.releasing = some e) (hlease : pc'.isSome → t'.lease = some e)
    (j : EntryId) : EntryStep σ σ' t t' choice j := by
  cases h with
  | touch => exact .kept rfl rfl
  | @store nowMs =>
    by_cases hj : j = e
    · subst hj
      exact .stored (hlease rfl) (word_setLastUsed ..)
    · exact .kept (word_setLastUsed ..) (by rw [lastUsed_setLastUsed, if_neg hj])
  | fetchSub =>
    by_cases hj : j = e
    · subst hj
      refine .released (hby rfl) ?_ (lastUsed_fetchSub ..)
      rw [Shared.fetchSub, word_setLeases, if_pos rfl]
    · refine .kept ?_ (lastUsed_fetchSub ..)
      rw [Shared.fetchSub, word_setLeases, if_neg hj]

/-- A step of `close_entry` leaves the count and the time of every entry alone. -/
theorem CloseBranch.word {σ σ' : Shared} {e : EntryId} {pc : ClosePc} {pc' : Option ClosePc}
    (h : CloseBranch σ e pc (σ', pc')) (j : EntryId) :
    (σ'.heap j).activeLeases = (σ.heap j).activeLeases := by
  cases h with
  | unopened | opened | optimize | checkpoint => rfl
  | readers | writer => exact word_updatePools ..

/-- A successful exchange raises the count of the entry that the task leases. -/
theorem EntryStep.of_leased {σ : Shared} {t t' : Task} {choice : Choice} {e : EntryId}
    (hby : t.leasing σ choice = some e) (hlease : t'.lease = some e) (j : EntryId) :
    EntryStep σ (σ.setLeases e ((σ.heap e).activeLeases + 1)) t t' choice j := by
  by_cases hj : j = e
  · subst hj
    exact .leased hby hlease (by rw [word_setLeases, if_pos rfl]) (lastUsed_setLeases ..)
  · exact .kept (by rw [word_setLeases, if_neg hj]) (lastUsed_setLeases ..)

theorem AcquireBranch.entry {σ σ' : Shared} {call call' : Call} {pc pc' : AcquirePc}
    {choice : Choice} {spawned : Option EntryId}
    (h : AcquireBranch settings σ call pc choice (σ', call', pc', spawned)) (j : EntryId) :
    EntryStep σ σ' (.acquire call pc) (.acquire call' pc') choice j := by
  cases h with
  | evictNext hevict | evictNone hevict | evictSome hevict =>
    obtain ⟨hlast, hword | ⟨⟨name, rfl⟩, hw, hword⟩⟩ := hevict.entry j
    · exact .kept hword hlast
    · exact .closed (Or.inl ⟨name, rfl⟩) hw hword hlast
  | @insert nowMs =>
    have hword := word_insertNew σ j
      (DatabaseEntry.new call.name settings.maxConcurrentRequestsPerDatabase nowMs)
    have hlast := lastUsed_insertNew σ j
      (DatabaseEntry.new call.name settings.maxConcurrentRequestsPerDatabase nowMs)
    by_cases hj : j = σ.created
    · rw [if_pos hj] at hword
      exact .created call.name (by rw [hj]; rfl) hj hword
    · rw [if_neg hj] at hword hlast
      exact .kept hword hlast
  | leaseTaken hlease => exact .of_leased (by simp [Task.leasing, hlease]) rfl j
  | @store e nowMs =>
    by_cases hj : j = e
    · exact .stored (by simp [Task.lease, hj]) (word_setLastUsed ..)
    · exact .kept (word_setLastUsed ..) (by rw [lastUsed_setLastUsed, if_neg hj])
  | dropNext hdrop => exact hdrop.entry (fun hpc => by subst hpc; rfl) (fun _ => rfl) j
  | dropSlots hdrop | dropDone hdrop =>
    exact hdrop.entry (fun hpc => by subst hpc; rfl) (fun h => absurd h (by simp)) j
  | _ =>
    -- The other branches change no count and no time.
    exact .kept (by simp [Shared.recordShed]) (by simp [Shared.recordShed])

theorem CleanupBranch.entry {σ σ' : Shared} {pc pc' : CleanupPc} {choice : Choice}
    (h : CleanupBranch settings σ pc choice (σ', pc')) (j : EntryId) :
    EntryStep σ σ' (.cleanupIdle pc) (.cleanupIdle pc') choice j := by
  cases h with
  | takeNext htake | takeNone htake | takeSome htake =>
    obtain ⟨hlast, hword | ⟨⟨name, rfl⟩, hw, hword⟩⟩ := htake.entry j
    · exact .kept hword hlast
    · exact .closed (Or.inl ⟨name, rfl⟩) hw hword hlast
  | closeNext hclose | closeDone hclose => exact .kept (hclose.word j) (hclose.lastUsed j)
  | _ => exact .kept rfl rfl

theorem CheckpointBranch.entry {σ σ' : Shared} {pc pc' : CheckpointPc} {choice : Choice}
    (h : CheckpointBranch σ pc choice (σ', pc')) (j : EntryId) :
    EntryStep σ σ' (.checkpointWal pc) (.checkpointWal pc') choice j := by
  cases h with
  | leaseTaken hlease => exact .of_leased (by simp [Task.leasing, hlease]) rfl j
  | dropNext hdrop | abortNext hdrop =>
    exact hdrop.entry (fun hpc => by subst hpc; rfl) (fun _ => rfl) j
  | dropDone hdrop | abortDone hdrop =>
    exact hdrop.entry (fun hpc => by subst hpc; rfl) (fun h => absurd h (by simp)) j
  | _ => exact .kept rfl rfl

theorem CloseAllBranch.entry {σ σ' : Shared} {pc pc' : CloseAllPc} {choice : Choice}
    (h : CloseAllBranch σ pc choice (σ', pc')) (j : EntryId) :
    EntryStep σ σ' (.closeAll pc) (.closeAll pc') choice j := by
  cases h with
  | @beginClose e _ hw =>
    by_cases hj : j = e
    · subst hj
      exact .closed (Or.inr rfl) hw (by rw [word_setLeases, if_pos rfl]) (lastUsed_setLeases ..)
    · exact .kept (by rw [word_setLeases, if_neg hj]) (lastUsed_setLeases ..)
  | closeNext hclose | closeDone hclose => exact .kept (hclose.word j) (hclose.lastUsed j)
  | _ => exact .kept rfl rfl

/-- The one spec of a step of a task, for the count and the time of an entry. -/
theorem TaskBranch.entry {σ σ' : Shared} {t t' : Task} {choice : Choice} {spawned : List Task}
    (h : TaskBranch settings σ t choice (σ', t', spawned)) (j : EntryId) :
    EntryStep σ σ' t t' choice j := by
  cases h with
  | acquire h => exact h.entry j
  | cleanupIdle h => exact h.entry j
  | checkpointWal h => exact h.entry j
  | closeEntry h => exact .kept (h.word j) (h.lastUsed j)
  | closeAll h => exact h.entry j

/-! ## What a task does to the bindings -/

/-- What a step of a task does to the bindings. -/
inductive MapStep (σ σ' : Shared) (t : Task) (choice : Choice) : Prop where
  | kept (hmap : σ'.entries = σ.entries)
  | inserted (name : String) (hby : t.event σ choice = some (.insert name σ.created))
      (hmap : σ'.entries = σ.entries.insert name σ.created)
  | removed (name : String) (e : EntryId) (hby : t.removing = some (name, e))
      (hmap : σ'.entries = σ.entries.erase name)
  | unlinked (name : String) (e : EntryId)
      (hby : t.event σ choice = some (.unlinkFailed name e))
      (hmap : σ'.entries = eraseIf σ.entries name e)
  | cleared {entries : List EntryId} (hby : t = .closeAll (.clear entries))
      (hmap : σ'.entries = ∅)

/-- Only the `remove` of `take` changes the bindings. -/
theorem TakeBranch.map {σ σ' : Shared} {pc : TakePc} {result : TakeStep}
    (h : TakeBranch σ pc (σ', result)) :
    σ'.entries = σ.entries ∨
      ∃ name e, pc = .remove name e ∧ σ'.entries = σ.entries.erase name := by
  cases h with
  | vacant | found | leased | closed => exact Or.inl rfl
  | @remove name e => exact Or.inr ⟨name, e, rfl, rfl⟩

theorem EvictBranch.map {σ σ' : Shared} {pc : EvictPc} {choice : Choice} {result : EvictStep}
    (h : EvictBranch σ pc choice (σ', result)) :
    σ'.entries = σ.entries ∨
      ∃ name e, pc = .take (.remove name e) ∧ σ'.entries = σ.entries.erase name := by
  cases h with
  | visitLeased | visitIdle | noCandidate | oldest | older | newer => exact Or.inl rfl
  | takeNext htake | takeNone htake | takeSome htake =>
    rcases htake.map with hmap | ⟨name, e, rfl, hmap⟩
    · exact Or.inl hmap
    · exact Or.inr ⟨name, e, rfl, hmap⟩

theorem DropBranch.map {σ σ' : Shared} {e : EntryId} {pc : DropPc} {pc' : Option DropPc}
    (h : DropBranch σ e pc (σ', pc')) : σ'.entries = σ.entries := by
  cases h <;> rfl

theorem CloseBranch.map {σ σ' : Shared} {e : EntryId} {pc : ClosePc} {pc' : Option ClosePc}
    (h : CloseBranch σ e pc (σ', pc')) : σ'.entries = σ.entries := by
  cases h <;> rfl

theorem AcquireBranch.map {σ σ' : Shared} {call call' : Call} {pc pc' : AcquirePc}
    {choice : Choice} {spawned : Option EntryId}
    (h : AcquireBranch settings σ call pc choice (σ', call', pc', spawned)) :
    MapStep σ σ' (.acquire call pc) choice := by
  cases h with
  | evictNext hevict | evictNone hevict | evictSome hevict =>
    rcases hevict.map with hmap | ⟨name, e, rfl, hmap⟩
    · exact .kept hmap
    · exact .removed name e rfl hmap
  | insert => exact .inserted call.name rfl rfl
  | @removeIf e => exact .unlinked call.name e rfl rfl
  | dropNext hdrop | dropSlots hdrop | dropDone hdrop => exact .kept hdrop.map
  | _ => exact .kept rfl

/-- The one spec of a step of a task, for the bindings. -/
theorem TaskBranch.map {σ σ' : Shared} {t t' : Task} {choice : Choice} {spawned : List Task}
    (h : TaskBranch settings σ t choice (σ', t', spawned)) : MapStep σ σ' t choice := by
  cases h with
  | acquire h => exact h.map
  | cleanupIdle h =>
    cases h with
    | takeNext htake | takeNone htake | takeSome htake =>
      rcases htake.map with hmap | ⟨name, e, rfl, hmap⟩
      · exact .kept hmap
      · exact .removed name e rfl hmap
    | closeNext hclose | closeDone hclose => exact .kept hclose.map
    | _ => exact .kept rfl
  | checkpointWal h =>
    cases h with
    | dropNext hdrop | dropDone hdrop | abortNext hdrop | abortDone hdrop => exact .kept hdrop.map
    | _ => exact .kept rfl
  | closeEntry h => exact .kept h.map
  | closeAll h =>
    cases h with
    | clear => exact .cleared rfl rfl
    | closeNext hclose | closeDone hclose => exact .kept hclose.map
    | _ => exact .kept rfl

/-- A binding after a step was there before it, or is the new one. -/
theorem MapStep.lookup_back {σ σ' : Shared} {t : Task} {choice : Choice}
    (h : MapStep σ σ' t choice) {name : String} {e : EntryId}
    (hl : σ'.entries.lookup name = some e) :
    σ.entries.lookup name = some e ∨
      (e = σ.created ∧ t.event σ choice = some (.insert name e)) := by
  cases h with
  | kept hmap => exact Or.inl (hmap ▸ hl)
  | inserted n hby hmap =>
    rw [hmap, lookup_insert_of] at hl
    split at hl
    · rename_i hn
      obtain rfl := Option.some.inj hl
      exact Or.inr ⟨rfl, hn ▸ hby⟩
    · exact Or.inl hl
  | removed n j _ hmap => exact Or.inl (lookup_of_lookup_erase (hmap ▸ hl)).2
  | unlinked n j _ hmap => exact Or.inl (lookup_of_lookup_eraseIf (hmap ▸ hl)).1
  | cleared _ hmap =>
    rw [hmap] at hl
    exact absurd hl (by simp)

theorem TakeBranch.now {σ σ' : Shared} {pc : TakePc} {result : TakeStep}
    (h : TakeBranch σ pc (σ', result)) : σ'.now = σ.now := by
  cases h <;> rfl

theorem EvictBranch.now {σ σ' : Shared} {pc : EvictPc} {choice : Choice} {result : EvictStep}
    (h : EvictBranch σ pc choice (σ', result)) : σ'.now = σ.now := by
  cases h with
  | visitLeased | visitIdle | noCandidate | oldest | older | newer => rfl
  | takeNext htake | takeNone htake | takeSome htake => exact htake.now

theorem DropBranch.now {σ σ' : Shared} {e : EntryId} {pc : DropPc} {pc' : Option DropPc}
    (h : DropBranch σ e pc (σ', pc')) : σ'.now = σ.now := by
  cases h <;> rfl

theorem CloseBranch.now {σ σ' : Shared} {e : EntryId} {pc : ClosePc} {pc' : Option ClosePc}
    (h : CloseBranch σ e pc (σ', pc')) : σ'.now = σ.now := by
  cases h <;> rfl

/-- No task sets the clock. -/
theorem TaskBranch.now {σ σ' : Shared} {t t' : Task} {choice : Choice} {spawned : List Task}
    (h : TaskBranch settings σ t choice (σ', t', spawned)) : σ'.now = σ.now := by
  cases h with
  | acquire h =>
    cases h with
    | evictNext hevict | evictNone hevict | evictSome hevict => exact hevict.now
    | dropNext hdrop | dropSlots hdrop | dropDone hdrop => exact hdrop.now
    | _ => rfl
  | cleanupIdle h =>
    cases h with
    | takeNext htake | takeNone htake | takeSome htake => exact htake.now
    | closeNext hclose | closeDone hclose => exact hclose.now
    | _ => rfl
  | checkpointWal h =>
    cases h with
    | dropNext hdrop | dropDone hdrop | abortNext hdrop | abortDone hdrop => exact hdrop.now
    | _ => rfl
  | closeEntry h => exact h.now
  | closeAll h =>
    cases h with
    | closeNext hclose | closeDone hclose => exact hclose.now
    | _ => rfl

/-! ## A task in `take` -/

/-- A step that leaves a task in `take` is a step of `take`, or has just called
it. -/
theorem EvictBranch.takePc {σ σ' : Shared} {pc : EvictPc} {choice : Choice} {pc' : TakePc}
    (h : EvictBranch σ pc choice (σ', .next (.take pc'))) :
    (∃ name, pc' = .get name) ∨
      ∃ tpc, pc = .take tpc ∧ choice = .go ∧ TakeBranch σ tpc (σ', .next pc') := by
  cases h with
  | oldest => exact Or.inl ⟨_, rfl⟩
  | takeNext htake => exact Or.inr ⟨_, rfl, rfl, htake⟩

theorem CleanupPc.takePc_next {closed : Nat} {rest : List String} {pc' : TakePc}
    (h : (Task.cleanupIdle (.next closed rest)).takePc = some pc') : ∃ name, pc' = .get name := by
  cases rest with
  | nil => exact absurd h (by simp [CleanupPc.next, Task.takePc])
  | cons name rest => exact ⟨name, (Option.some.inj h).symm⟩

theorem TaskBranch.takePc {σ σ' : Shared} {t t' : Task} {choice : Choice} {spawned : List Task}
    (h : TaskBranch settings σ t choice (σ', t', spawned)) {pc' : TakePc}
    (hpc : t'.takePc = some pc') :
    (∃ name, pc' = .get name) ∨
      ∃ pc, t.takePc = some pc ∧ choice = .go ∧ TakeBranch σ pc (σ', .next pc') := by
  cases h with
  | acquire h =>
    cases h with
    | @evictNext _ _ _ _ epc hevict =>
      cases epc with
      | take tpc =>
        obtain rfl := Option.some.inj hpc
        rcases hevict.takePc with hget | ⟨pc, rfl, hgo, htake⟩
        · exact Or.inl hget
        · exact Or.inr ⟨pc, rfl, hgo, htake⟩
      | scan | lastUsed => exact absurd hpc (by simp [Task.takePc])
    | _ => exact absurd hpc (by simp [Task.takePc])
  | cleanupIdle h =>
    cases h with
    | takeNext htake =>
      obtain rfl := Option.some.inj hpc
      exact Or.inr ⟨_, rfl, rfl, htake⟩
    | finish | takeNone | closeDone => exact Or.inl (CleanupPc.takePc_next hpc)
    | _ => exact absurd hpc (by simp [Task.takePc])
  | checkpointWal | closeEntry | closeAll => exact absurd hpc (by simp [Task.takePc])

/-- A task comes to the `remove` of `take` by a `begin_close` that succeeds. -/
theorem TaskBranch.removing {σ σ' : Shared} {t t' : Task} {choice : Choice} {spawned : List Task}
    (h : TaskBranch settings σ t choice (σ', t', spawned)) {name : String} {e : EntryId}
    (hremoving : t'.removing = some (name, e)) :
    t.taking = some (name, e) ∧ choice = .go ∧ (σ.heap e).activeLeases = 0 ∧
      σ' = σ.setLeases e CLOSED := by
  rcases h.takePc (Task.takePc_of_removing hremoving) with ⟨n, hget⟩ | ⟨pc, hold, hgo, htake⟩
  · exact absurd hget (by simp)
  · cases htake with
    | closed hw => exact ⟨by simp [Task.taking, hold], hgo, hw, rfl⟩

/-- A task that looks up an entry in `take` finds it bound to the name. -/
theorem TaskBranch.taking {σ σ' : Shared} {t t' : Task} {choice : Choice} {spawned : List Task}
    (h : TaskBranch settings σ t choice (σ', t', spawned)) {name : String} {e : EntryId}
    (htaking : t'.taking = some (name, e)) :
    t.takePc = some (.get name) ∧ σ' = σ ∧ σ.entries.lookup name = some e := by
  rcases h.takePc (Task.takePc_of_taking htaking) with ⟨n, hget⟩ | ⟨pc, hold, _, htake⟩
  · exact absurd hget (by simp)
  · cases htake with
    | found hl => exact ⟨hold, rfl, hl⟩

/-- A task whose future is dropped is not in `take`. -/
theorem TaskCancelBranch.takePc {σ σ' : Shared} {t t' : Task}
    (h : TaskCancelBranch σ t (σ', t')) : t'.takePc = none := by
  cases h with
  | acquire h => cases h <;> rfl
  | cleanupIdle | checkpointWal => rfl

/-! ## The steps of the system -/

section System

variable {s s' : State} {a : Action}

/-- A task that moves makes the step that leads to its new place. -/
theorem State.step_own {i : Nat} {choice : Choice} {t t' : Task}
    (h : s.step settings (.step i choice) = some s') (hi : s.tasks[i]? = some t)
    (hi' : s'.tasks[i]? = some t') :
    ∃ spawned, t.step settings s.shared choice = some (s'.shared, t', spawned) ∧
      s'.tasks = update s.tasks i t' spawned := by
  rcases State.step_task h hi with ⟨⟨hother, _⟩, _⟩ | ⟨choice', σ', u, spawned, ha, hstep, rfl⟩ |
    ⟨_, _, ha, _⟩
  · exact absurd rfl (hother choice)
  · obtain ⟨_, rfl⟩ := Action.step.inj ha
    obtain rfl := Option.some.inj ((getElem?_update_self hi).symm.trans hi')
    exact ⟨spawned, hstep, rfl⟩
  · exact absurd ha (by simp)

/-- A step leaves an entry alone, or a task does to it what `EntryStep` says. -/
theorem State.step_entry (h : s.step settings a = some s') (j : EntryId) :
    ((s'.shared.heap j).activeLeases = (s.shared.heap j).activeLeases ∧
      (s'.shared.heap j).lastUsedMs = (s.shared.heap j).lastUsedMs) ∨
    ∃ i choice t t', a = .step i choice ∧ s.tasks[i]? = some t ∧ s'.tasks[i]? = some t' ∧
      EntryStep s.shared s'.shared t t' choice j := by
  rcases State.step_cases h with ⟨operation, _, rfl⟩ |
    ⟨i, choice, t, σ', t', spawned, ha, hi, hstep, hadv⟩ | ⟨i, t, σ', t', _, hi, hcancel, hadv⟩ |
    ⟨nowMs, _, rfl⟩
  · exact Or.inl ⟨rfl, rfl⟩
  · obtain ⟨rfl, _⟩ := State.advance_eq_some hadv
    exact Or.inr ⟨i, choice, t, t', ha, hi, getElem?_update_self hi,
      (Task.step_branch hstep).entry j⟩
  · obtain ⟨rfl, _⟩ := State.advance_eq_some hadv
    left
    cases Task.cancel_branch hcancel with
    | acquire hbranch => cases hbranch <;> exact ⟨by simp, by simp⟩
    | cleanupIdle | checkpointWal => exact ⟨rfl, rfl⟩
  · exact Or.inl ⟨rfl, rfl⟩

/-- A step leaves the bindings alone, or a task does to them what `MapStep`
says. -/
theorem State.step_map (h : s.step settings a = some s') :
    s'.shared.entries = s.shared.entries ∨
    ∃ i choice t, a = .step i choice ∧ s.tasks[i]? = some t ∧
      MapStep s.shared s'.shared t choice := by
  rcases State.step_cases h with ⟨operation, _, rfl⟩ |
    ⟨i, choice, t, σ', t', spawned, ha, hi, hstep, hadv⟩ | ⟨i, t, σ', t', _, hi, hcancel, hadv⟩ |
    ⟨nowMs, _, rfl⟩
  · exact Or.inl rfl
  · obtain ⟨rfl, _⟩ := State.advance_eq_some hadv
    exact Or.inr ⟨i, choice, t, ha, hi, (Task.step_branch hstep).map⟩
  · obtain ⟨rfl, _⟩ := State.advance_eq_some hadv
    left
    cases Task.cancel_branch hcancel with
    | acquire hbranch => cases hbranch <;> rfl
    | cleanupIdle | checkpointWal => rfl
  · exact Or.inl rfl

/-- A binding after a step was there before it, or the step inserts it. -/
theorem State.step_lookup (h : s.step settings a = some s') {name : String} {e : EntryId}
    (hl : s'.shared.entries.lookup name = some e) :
    s.shared.entries.lookup name = some e ∨
      (e = s.shared.created ∧ s.event a = some (.insert name e)) := by
  rcases State.step_map h with hmap | ⟨i, choice, t, rfl, hi, hmap⟩
  · exact Or.inl (hmap ▸ hl)
  · rcases hmap.lookup_back hl with hl | ⟨hnew, hev⟩
    · exact Or.inl hl
    · exact Or.inr ⟨hnew, by simpa [State.event, hi] using hev⟩

/-- A step that inserts nothing binds nothing. -/
theorem State.step_unbound (h : s.step settings a = some s')
    (hnone : ∀ name e, s.event a ≠ some (.insert name e)) {name : String} {e : EntryId}
    (hl : s'.shared.entries.lookup name = some e) : s.shared.entries.lookup name = some e := by
  rcases State.step_lookup h hl with hl | ⟨_, hev⟩
  · exact hl
  · exact absurd hev (hnone name e)

/-- The entry that a step makes idle: the last lease on it is dropped. -/
def State.idling (s : State) : Action → Option EntryId
  | .step i .go =>
    (s.tasks[i]?.bind Task.releasing).filter fun e => decide ((s.shared.heap e).activeLeases = 1)
  | _ => none

/-- Who lowers a count holds a lease. -/
theorem Task.lease_of_releasing {t : Task} {e : EntryId} (h : t.releasing = some e) :
    t.lease = some e := by
  unfold Task.releasing at h
  split at h
  · exact h
  · exact h
  · exact h
  · simp at h

/-- A task does not lower a count on the step that raises one. -/
theorem Task.releasing_of_leasing {σ : Shared} {t : Task} {choice : Choice} {e : EntryId}
    (h : t.leasing σ choice = some e) : t.releasing = none := by
  unfold Task.leasing at h
  split at h
  · rfl
  · rfl
  · simp at h

/-- Only a step of the drop lowers a count. -/
theorem TaskBranch.go_of_releasing {σ σ' : Shared} {t t' : Task} {choice : Choice}
    {spawned : List Task} (h : TaskBranch settings σ t choice (σ', t', spawned)) {e : EntryId}
    (hreleasing : t.releasing = some e) : choice = .go := by
  unfold Task.releasing at hreleasing
  split at hreleasing
  · cases h with
    | acquire h => cases h <;> rfl
  · cases h with
    | checkpointWal h => cases h <;> rfl
  · cases h with
    | checkpointWal h => cases h <;> rfl
  · simp at hreleasing

/-- An entry that is idle after a step was idle before it, or the step drops the
last lease on it, and its time is the same; or the step inserts it. -/
theorem State.step_idle (hreach : (manager settings).Reachable s)
    (h : s.step settings a = some s') {e : EntryId}
    (hidle : (s'.shared.heap e).activeLeases = 0) :
    (((s.shared.heap e).activeLeases = 0 ∨ s.idling a = some e) ∧
      (s'.shared.heap e).lastUsedMs = (s.shared.heap e).lastUsedMs) ∨
    (e = s.shared.created ∧ ∃ name, s.event a = some (.insert name e)) := by
  have hreach' : (manager settings).Reachable s' := hreach.step trivial h
  rcases State.step_entry h e with ⟨hword, hlast⟩ | ⟨i, choice, t, t', rfl, hi, hi', hentry⟩
  · exact Or.inl ⟨Or.inl (hword ▸ hidle), hlast⟩
  · cases hentry with
    | kept hword hlast => exact Or.inl ⟨Or.inl (hword ▸ hidle), hlast⟩
    | leased _ _ hword => omega
    | released hby hword hlast =>
      refine Or.inl ⟨Or.inr ?_, hlast⟩
      obtain ⟨spawned, hstep, _⟩ := State.step_own h hi hi'
      obtain rfl := (Task.step_branch hstep).go_of_releasing hby
      -- The holder makes the count positive.
      have hpos := holders_pos (List.mem_of_getElem? hi) (Task.lease_of_releasing hby)
      have hcounts := counts_holders hreach e
      obtain ⟨n, hn⟩ := Nat.exists_eq_succ_of_ne_zero (Nat.ne_of_gt hpos)
      have hone : (s.shared.heap e).activeLeases = 1 := by
        have hzero : n = 0 := (hn ▸ hcounts).release.of_zero (hword.symm.trans hidle)
        rw [(hcounts.of_pos hpos).1, hn, hzero]
      simp [State.idling, hi, hby, hone]
    | closed _ _ hword =>
      rw [hword] at hidle
      exact absurd hidle (by decide)
    | stored hlease hword =>
      have hpos := holders_pos (List.mem_of_getElem? hi') hlease
      have := ((counts_holders hreach' e).of_pos hpos).1
      omega
    | created name hby hnew =>
      exact Or.inr ⟨hnew, name, by simpa [State.event, hi] using hby⟩

/-- An entry whose word counts has a holder. -/
theorem holders_of_word (hreach : (manager settings).Reachable s) {e : EntryId}
    (hw : (s.shared.heap e).activeLeases ≠ 0) (hopen : (s.shared.heap e).activeLeases ≠ CLOSED) :
    0 < s.holders e := by
  have := (counts_holders hreach e).eq_of_ne hopen
  omega

/-- Only `begin_close` closes an entry: that of `take`, or that of `close_all`. -/
theorem State.step_closed (hreach : (manager settings).Reachable s)
    (h : s.step settings a = some s') {e : EntryId}
    (hclosed : (s'.shared.heap e).activeLeases = CLOSED) :
    (s.shared.heap e).activeLeases = CLOSED ∨
    (s.shared.heap e).activeLeases = 0 ∧ ∃ i choice t, a = .step i choice ∧
      s.tasks[i]? = some t ∧ ((∃ name, t.taking = some (name, e)) ∨ t.isCloseAll = true) := by
  have hreach' : (manager settings).Reachable s' := hreach.step trivial h
  rcases State.step_entry h e with ⟨hword, _⟩ | ⟨i, choice, t, t', ha, hi, hi', hentry⟩
  · exact Or.inl (hword ▸ hclosed)
  · cases hentry with
    | kept hword | stored _ hword => exact Or.inl (hword ▸ hclosed)
    | leased _ hlease =>
      have hheld := holders_pos (List.mem_of_getElem? hi') hlease
      exact absurd hclosed ((counts_holders hreach' e).of_pos hheld).2
    | released hby hword =>
      -- The count was positive, so its decrement does not wrap.
      have hpos := holders_pos (List.mem_of_getElem? hi) (Task.lease_of_releasing hby)
      rcases Counts.iff.mp (counts_holders hreach e) with ⟨hold, _⟩ | ⟨hcount, hlt⟩
      · exact Or.inl hold
      · obtain ⟨n, hn⟩ := Nat.exists_eq_succ_of_ne_zero (Nat.ne_of_gt hpos)
        rw [hcount, hn, fetchSub_succ (by omega)] at hword
        omega
    | closed hby hidle => exact Or.inr ⟨hidle, i, choice, t, ha, hi, hby⟩
    | created _ _ _ hword => exact absurd (hword.symm.trans hclosed) (by decide)

/-- An entry with a holder has one after a step, unless the step drops the last
lease on it. -/
theorem State.step_holders (hreach : (manager settings).Reachable s)
    (h : s.step settings a = some s') {e : EntryId} (hpos : 0 < s.holders e) :
    0 < s'.holders e ∨ s.idling a = some e := by
  obtain ⟨hcount, hopen⟩ := (counts_holders hreach e).of_pos hpos
  by_cases hidle : (s'.shared.heap e).activeLeases = 0
  · rcases State.step_idle hreach h hidle with ⟨hzero | hidling, _⟩ | ⟨hnew, _⟩
    · omega
    · exact Or.inr hidling
    · obtain ⟨starts, hmon⟩ := exists_monitor hreach
      have hzero : (s.shared.heap e).activeLeases = 0 :=
        (reachable_inv hmon).2.sound.fresh e (Nat.le_of_eq hnew.symm)
      omega
  · left
    apply holders_of_word (hreach.step trivial h) hidle
    intro hclosed
    rcases State.step_closed hreach h hclosed with hold | ⟨hzero, _⟩
    · exact hopen hold
    · omega

/-- What holds of every task holds after a step, if the task that moved keeps it,
the others keep it, and it holds of the new ones. -/
theorem State.forall_step {P Q : Nat → Task → Prop} (h : s.step settings a = some s')
    (hold : ∀ i t, s.tasks[i]? = some t → P i t)
    (hother : ∀ i t, s.tasks[i]? = some t → s'.tasks[i]? = some t →
      (∀ choice, a ≠ .step i choice) → P i t → Q i t)
    (hown : ∀ i choice t t' spawned, a = .step i choice → s.tasks[i]? = some t →
      s'.tasks[i]? = some t' → TaskBranch settings s.shared t choice (s'.shared, t', spawned) →
      P i t → Q i t')
    (hcancel : ∀ i t t', a = .cancel i → s.tasks[i]? = some t →
      TaskCancelBranch s.shared t (s'.shared, t') → P i t → Q i t')
    (hstart : ∀ operation, a = .start operation → Q s.tasks.length operation.task)
    (hspawn : ∀ i e, Q i (.closeEntry e (some .start))) :
    ∀ i t, s'.tasks[i]? = some t → Q i t := by
  intro k u hk
  rcases State.step_cases h with ⟨operation, rfl, rfl⟩ |
    ⟨i, choice, t, σ', t', spawned, rfl, hi, hstep, hadv⟩ |
    ⟨i, t, σ', t', rfl, hi, hcancelled, hadv⟩ | ⟨nowMs, rfl, rfl⟩
  · rcases Nat.lt_or_ge k s.tasks.length with hlt | hge
    · have hk' : s.tasks[k]? = some u := (List.getElem?_append_left hlt).symm.trans hk
      exact hother k u hk' hk (fun _ => Action.noConfusion) (hold k u hk')
    · have hk' := (List.getElem?_append_right hge).symm.trans hk
      obtain ⟨hzero, rfl⟩ := List.getElem?_eq_some_iff.mp hk'
      obtain rfl : k = s.tasks.length := by
        simp only [List.length_singleton] at hzero
        omega
      simpa using hstart operation rfl
  · obtain ⟨rfl, _⟩ := State.advance_eq_some hadv
    have hbranch := Task.step_branch hstep
    by_cases hki : k = i
    · subst hki
      have hself : (update s.tasks k t' spawned)[k]? = some t' := getElem?_update_self hi
      obtain rfl := Option.some.inj (hself.symm.trans hk)
      exact hown k choice t t' spawned rfl hi hself hbranch (hold k t hi)
    · rcases Nat.lt_or_ge k s.tasks.length with hlt | hge
      · have hk' : s.tasks[k]? = some u := by
          rw [← hk, update, List.getElem?_append_left (by rwa [List.length_set]),
            List.getElem?_set_ne (Ne.symm hki)]
        exact hother k u hk' hk (fun choice' ha => hki (Action.step.inj ha).1.symm) (hold k u hk')
      · have hmem : u ∈ spawned := by
          rw [update, List.getElem?_append_right (by rwa [List.length_set])] at hk
          exact List.mem_of_getElem? hk
        cases hbranch with
        | acquire =>
          obtain ⟨e, _, rfl⟩ := List.mem_map.mp hmem
          exact hspawn k e
        | cleanupIdle | checkpointWal | closeEntry | closeAll => exact absurd hmem List.not_mem_nil
  · obtain ⟨rfl, _⟩ := State.advance_eq_some hadv
    have hbranch := Task.cancel_branch hcancelled
    by_cases hki : k = i
    · subst hki
      have hself : (update s.tasks k t' [])[k]? = some t' := getElem?_update_self hi
      obtain rfl := Option.some.inj (hself.symm.trans hk)
      exact hcancel k t t' rfl hi hbranch (hold k t hi)
    · have hk' : s.tasks[k]? = some u := by
        rw [← hk, update, List.append_nil, List.getElem?_set_ne (Ne.symm hki)]
      exact hother k u hk' hk (fun _ => Action.noConfusion) (hold k u hk')
  · exact hother k u hk hk (fun _ => Action.noConfusion) (hold k u hk)

end System

end Tinkiva.Manager
