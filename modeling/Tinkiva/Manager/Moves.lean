import Tinkiva.Manager.Branches
import Tinkiva.Manager.Event
import Tinkiva.Protocol.Rules

/-!
# The steps of the manager as moves of the lease protocol

`Shared.registry` reads the registry of the protocol off the shared state, and
`Task.tokens` says what a task owns and knows at each program counter.

There are two groups.

* The operations on the shared state as operations on the registry.
* The moves.  Each machine of `Tinkiva.Manager.Task` has its lemma, with one
  case for each branch: a step of the machine is a rule of the protocol, or
  changes nothing that the protocol shows.
-/

namespace Tinkiva.Manager

open Tinkiva.Config Tinkiva.Protocol ConcurrentMap TokenPool TaskPool

/-! ## The registry of a shared state -/

/-- The limits of the protocol for given settings. -/
def limits (settings : DatabaseSettings) : Limits where
  top := CLOSED
  capacity := settings.maxOpenDatabases
  slots := settings.maxConcurrentRequests
  tenantSlots := settings.maxConcurrentRequestsPerDatabase
  top_pos := by decide

/-- How far the pools of an entry have come. -/
def OnceCell.stage (cell : OnceCell Pools) : Stage :=
  match cell.value with
  | some pools =>
    if pools.writer.closed then .closed else if pools.readers.closed then .draining else .ready
  | none => if cell.initializing then .opening else .unopened

/-- The registry of the protocol, with the number of starts of `close_entry`. -/
def Shared.registry (σ : Shared) (starts : EntryId → Nat) : Registry String where
  entries := σ.entries
  created := σ.created
  name := fun e => (σ.heap e).name
  word := fun e => (σ.heap e).activeLeases
  stage := fun e => (σ.heap e).pools.stage
  starts := starts
  tenantSlots := fun e => (σ.heap e).slots
  slots := σ.slots
  locked := σ.admission

section Registry

variable (σ : Shared) (starts : EntryId → Nat) (e : EntryId)

/-- The registry after one entry of the heap is replaced. -/
theorem registry_modify (f : DatabaseEntry → DatabaseEntry) :
    (σ.modify e f).registry starts =
      { σ.registry starts with
        name := Function.update (fun j => (σ.heap j).name) e (f (σ.heap e)).name
        word := Function.update (fun j => (σ.heap j).activeLeases) e
          (f (σ.heap e)).activeLeases
        stage := Function.update (fun j => (σ.heap j).pools.stage) e
          (f (σ.heap e)).pools.stage
        tenantSlots := Function.update (fun j => (σ.heap j).slots) e (f (σ.heap e)).slots } := by
  simp only [Shared.registry, Shared.modify, Registry.mk.injEq, true_and, and_true]
  refine ⟨funext fun j => ?_, funext fun j => ?_, funext fun j => ?_, funext fun j => ?_⟩ <;>
    by_cases hj : j = e <;> simp [hj]

@[simp] theorem registry_setLeases (word : Nat) :
    (σ.setLeases e word).registry starts = (σ.registry starts).setWord e word := by
  rw [Shared.setLeases, registry_modify]
  simp [Registry.setWord, Shared.registry]

@[simp] theorem registry_fetchSub :
    (σ.fetchSub e).registry starts =
      (σ.registry starts).setWord e
        (SentinelCounter.fetchSub CLOSED (σ.heap e).activeLeases) :=
  registry_setLeases σ starts e _

@[simp] theorem registry_setLastUsed (nowMs : Nat) :
    (σ.setLastUsed e nowMs).registry starts = σ.registry starts := by
  rw [Shared.setLastUsed, registry_modify]
  simp [Shared.registry]

@[simp] theorem registry_setPools (cell : OnceCell Pools) :
    (σ.setPools e cell).registry starts = (σ.registry starts).setStage e cell.stage := by
  rw [Shared.setPools, registry_modify]
  simp [Registry.setStage, Shared.registry]

@[simp] theorem registry_takeTenantSlot :
    (σ.takeTenantSlot e).registry starts =
      (σ.registry starts).setTenantSlots e ((σ.heap e).slots - 1) := by
  rw [Shared.takeTenantSlot, registry_modify]
  simp [Registry.setTenantSlots, Shared.registry]

@[simp] theorem registry_giveTenantSlot :
    (σ.giveTenantSlot e).registry starts =
      (σ.registry starts).setTenantSlots e ((σ.heap e).slots + 1) := by
  rw [Shared.giveTenantSlot, registry_modify]
  simp [Registry.setTenantSlots, Shared.registry]

@[simp] theorem registry_giveSlots :
    (σ.giveSlots e).registry starts =
      { (σ.registry starts).setTenantSlots e ((σ.heap e).slots + 1) with
        slots := σ.slots + 1 } := by
  rw [← registry_giveTenantSlot]
  rfl

/-- `entries.insert` with a new entry. -/
theorem registry_insertNew (settings : DatabaseSettings) (name : String) (nowMs : Nat) :
    (σ.insertNew (.new name settings.maxConcurrentRequestsPerDatabase nowMs)).registry starts =
      (σ.registry starts).insertNew (limits settings) name := by
  simp only [Shared.registry, Shared.insertNew, Registry.insertNew, Registry.mk.injEq, true_and,
    and_true]
  refine ⟨rfl, funext fun j => ?_, funext fun j => ?_, funext fun j => ?_,
    funext fun j => ?_⟩ <;>
    by_cases hj : j = σ.created <;>
    simp [hj, DatabaseEntry.new, OnceCell.stage, limits]

/-- `pools.readers.close()`. -/
theorem registry_closeReaders :
    (σ.updatePools e fun pools => { pools with readers := ⟨true⟩ }).registry starts =
      (σ.registry starts).setStage e ((σ.registry starts).stage e).drain := by
  rw [Shared.updatePools, registry_setPools]
  congr 1
  change OnceCell.stage _ = (OnceCell.stage (σ.heap e).pools).drain
  rcases (σ.heap e).pools with ⟨_ | ⟨⟨writer⟩, ⟨readers⟩⟩, initializing⟩
  · cases initializing <;> rfl
  · cases writer <;> cases readers <;> rfl

/-- `pools.writer.close()`. -/
theorem registry_closeWriter :
    (σ.updatePools e fun pools => { pools with writer := ⟨true⟩ }).registry starts =
      (σ.registry starts).setStage e ((σ.registry starts).stage e).shut := by
  rw [Shared.updatePools, registry_setPools]
  congr 1
  change OnceCell.stage _ = (OnceCell.stage (σ.heap e).pools).shut
  rcases (σ.heap e).pools with ⟨_ | ⟨⟨writer⟩, ⟨readers⟩⟩, initializing⟩
  · cases initializing <;> rfl
  · cases writer <;> cases readers <;> rfl

/-- The pools of an entry are set exactly if its stage says opened. -/
theorem OnceCell.opened_stage (cell : OnceCell Pools) :
    cell.stage.opened = cell.value.isSome := by
  cases hv : cell.value with
  | none => cases hi : cell.initializing <;> simp [OnceCell.stage, hv, hi, Stage.opened]
  | some pools => simp only [OnceCell.stage, hv]; split_ifs <;> rfl

end Registry

/-! ## What a task owns and knows -/

open Token

/-- The tokens of a task inside `take`. -/
def TakePc.tokens : TakePc → Multiset (Token String)
  | .get _ => 0
  | .beginClose name e => {taking name e}
  | .remove name e => {removing name e}

def EvictPc.tokens : EvictPc → Multiset (Token String)
  | .take pc => pc.tokens
  | _ => 0

/-- The tokens of a running `close_entry`. -/
def ClosePc.tokens (e : EntryId) : ClosePc → Multiset (Token String)
  | .start => {due e}
  | _ => {closing e}

/-- The permits of a lease. -/
def slotTokens (e : EntryId) : Multiset (Token String) := {tenantSlot e} + {slot}

def AcquirePc.tokens (name : String) : AcquirePc → Multiset (Token String)
  | .get | .lock | .yield | .done _ => 0
  | .recheck | .unlock none => {guard .held}
  | .len _ => {guard (.vacant name)}
  | .evict _ pc => {guard (.vacant name)} + pc.tokens
  | .create | .insert _ => {guard (.room name)}
  | .unlock (some e) => {guard .held} + {acquiring name e}
  | .lease e _ => {acquiring name e}
  | .tenantSlot e => {acquiring name e} + {Token.lease e .idle}
  | .processSlot e => {acquiring name e} + {Token.lease e .idle} + {Token.tenantSlot e}
  | .ensureOpen e => {acquiring name e} + {Token.lease e .idle} + slotTokens e
  | .openPools e => {acquiring name e} + {Token.lease e .opening} + slotTokens e
  | .removeIf e => {Token.lease e (.failing name)} + slotTokens e
  | .touch e | .store e _ | .leased e =>
    {acquiring name e} + {Token.lease e .ready} + slotTokens e
  | .drop e true _ _ => {Token.lease e .idle} + slotTokens e
  | .drop e false _ _ => {Token.lease e .idle}
  | .slots e _ => slotTokens e

def CleanupPc.tokens : CleanupPc → Multiset (Token String)
  | .take pc _ _ => pc.tokens
  | .close e pc _ _ => pc.tokens e
  | _ => 0

/-- The entries of a scan as tokens. -/
def collectedTokens (es : List EntryId) : Multiset (Token String) :=
  (es : Multiset EntryId).map collected

def CheckpointPc.tokens : CheckpointPc → Multiset (Token String)
  | .scan _ es => collectedTokens es
  | .lease e _ rest _ => collectedTokens (e :: rest)
  | .pools e rest _ => {Token.lease e .idle} + collectedTokens rest
  | .pragma e rest _ => {Token.lease e .ready} + collectedTokens rest
  | .drop e _ rest _ => {Token.lease e .idle} + collectedTokens rest
  | .abort e _ => {Token.lease e .idle}
  | .start | .record _ | .done _ => 0

/-- The entries that `close_all` has still to close. -/
def doomedTokens (es : List EntryId) : Multiset (Token String) :=
  (es : Multiset EntryId).map doomed

def CloseAllPc.tokens : CloseAllPc → Multiset (Token String)
  | .start | .done => {Token.shutdown}
  | .scan _ es | .clear es => {Token.shutdown} + collectedTokens es
  | .beginClose e rest => {Token.shutdown} + doomedTokens (e :: rest)
  | .close _ _ rest => {Token.shutdown} + doomedTokens rest

def Task.tokens : Task → Multiset (Token String)
  | .acquire call pc => pc.tokens call.name
  | .cleanupIdle pc => pc.tokens
  | .checkpointWal pc => pc.tokens
  | .closeEntry e (some pc) => pc.tokens e
  | .closeEntry _ none => 0
  | .closeAll pc => pc.tokens

/-! ## The moves -/

section Moves

variable (settings : DatabaseSettings) {σ σ' : Shared} (starts : EntryId → Nat)

/-- A step that the protocol does not show. -/
theorem moves_idle {T T' : Multiset (Token String)} (hσ : σ'.registry starts = σ.registry starts)
    (hT : T' = T) : Moves (limits settings) (σ.registry starts) T (σ'.registry starts) T' := by
  rw [hσ, hT]
  exact .refl

/-- What a task that leaves `take` without an entry forgets. -/
theorem TakeBranch.knowledge {pc : TakePc} (h : TakeBranch σ pc (σ', .returned none)) :
    σ' = σ ∧ ∀ t ∈ pc.tokens, Token.Knowledge t := by
  cases h with
  | vacant => exact ⟨rfl, fun t ht => absurd ht (Multiset.notMem_zero t)⟩
  | leased =>
    refine ⟨rfl, fun t ht => ?_⟩
    obtain rfl := Multiset.mem_singleton.mp ht
    trivial

theorem TakeBranch.moves_next {pc pc' : TakePc} (h : TakeBranch σ pc (σ', .next pc')) :
    Moves (limits settings) (σ.registry starts) pc.tokens (σ'.registry starts) pc'.tokens := by
  cases h with
  | found hl => exact .of_rule 0 0 (.lookupTake hl) rfl rfl (by simp)
  | closed hw =>
    rw [registry_setLeases]
    exact .of_rule 0 0 (.beginClose hw) (zero_add _).symm (zero_add _).symm (by simp)

theorem TakeBranch.moves_some {pc : TakePc} {e : EntryId}
    (h : TakeBranch σ pc (σ', .returned (some e))) :
    Moves (limits settings) (σ.registry starts) pc.tokens (σ'.registry starts) {due e} := by
  cases h with
  | remove => exact .of_rule 0 0 .remove (zero_add _).symm (zero_add _).symm (by simp)

/-- A step of `close_entry`.  Its end is `none`. -/
theorem CloseBranch.moves {e : EntryId} {pc : ClosePc} {pc' : Option ClosePc}
    (h : CloseBranch σ e pc (σ', pc')) :
    Moves (limits settings) (σ.registry starts) (pc.tokens e)
      (σ'.registry (countStart starts (pc.event e)))
      (pc'.elim 0 fun pc' => pc'.tokens e) := by
  cases h with
  | unopened hpools =>
    have hun : ((σ.registry starts).stage e).opened = false := by
      change (σ.heap e).pools.stage.opened = false
      rw [OnceCell.opened_stage, hpools]
      rfl
    exact .of_rule 0 0 (.closeUnopened hun) rfl rfl (by simp)
  | opened => exact .of_rule 0 0 .closeStart rfl rfl (by simp)
  | readers =>
    rw [registry_closeReaders]
    exact .of_rule 0 0 .drain rfl rfl (by simp)
  | optimize | checkpoint => exact .refl
  | writer =>
    rw [registry_closeWriter]
    exact .of_rule 0 0 .shut rfl rfl (by simp)

/-- A step of the drop of a lease. -/
theorem DropBranch.moves {e : EntryId} {pc : DropPc} {pc' : Option DropPc}
    (h : DropBranch σ e pc (σ', pc')) :
    Moves (limits settings) (σ.registry starts) {Token.lease e .idle} (σ'.registry starts)
      (pc'.elim 0 fun _ => {Token.lease e .idle}) := by
  cases h with
  | touch => exact .refl
  | store => exact moves_idle settings starts (registry_setLastUsed ..) rfl
  | fetchSub =>
    rw [registry_fetchSub]
    exact .of_rule 0 0 .release rfl rfl (by simp)

/-- The drop of a lease, before the rest of what the task owns. -/
theorem DropBranch.moves_add {e : EntryId} {pc : DropPc} {pc' : Option DropPc}
    (rest : Multiset (Token String)) (h : DropBranch σ e pc (σ', pc')) :
    Moves (limits settings) (σ.registry starts) ({Token.lease e .idle} + rest)
      (σ'.registry starts) ((pc'.elim 0 fun _ => {Token.lease e .idle}) + rest) := by
  have hmoves := (h.moves settings starts).add_left rest
  rwa [add_comm, add_comm rest] at hmoves

/-- The tokens of the tasks that a step spawns. -/
def spawnedTokens (spawned : Option EntryId) : Multiset (Token String) :=
  spawned.elim 0 fun e => {due e}

/-- What a step of `evict_oldest_idle` leaves to the holder of the guard. -/
def EvictStep.tokens (name : String) : EvictStep → Multiset (Token String)
  | .next pc => {guard (.vacant name)} + pc.tokens
  | .returned none => {guard .held}
  | .returned (some e) => {guard (.vacant name)} + {due e}

/-- A step of `evict_oldest_idle`, under the guard of its caller. -/
theorem EvictBranch.moves (name : String) {pc : EvictPc} {choice : Choice} {result : EvictStep}
    (h : EvictBranch σ pc choice (σ', result)) :
    Moves (limits settings) (σ.registry starts) ({guard (.vacant name)} + pc.tokens)
      (σ'.registry starts) (result.tokens name) := by
  cases h with
  | visitLeased | visitIdle | oldest | older | newer => exact .refl
  | noCandidate => exact .of_rule 0 0 .refuse rfl rfl (by simp)
  | takeNext htake => exact (htake.moves_next settings starts).add_left _
  | @takeNone pc _ htake =>
    obtain ⟨rfl, hknow⟩ := htake.knowledge
    exact .of_rule 0 pc.tokens .refuse rfl rfl hknow
  | takeSome htake => exact (htake.moves_some settings starts).add_left _

/-- A step of `acquire` and of the caller that uses the lease. -/
theorem AcquireBranch.moves {call call' : Call} {pc pc' : AcquirePc} {choice : Choice}
    {spawned : Option EntryId}
    (h : AcquireBranch settings σ call pc choice (σ', call', pc', spawned)) :
    Moves (limits settings) (σ.registry starts) (pc.tokens call.name) (σ'.registry starts)
      (pc'.tokens call'.name + spawnedTokens spawned) := by
  cases h with
  | getVacant | lenFull | create | leaseNext | yieldAgain | yieldLast | touch => exact .refl
  | getFound hl => exact .of_rule 0 0 (.lookup hl) rfl rfl (by simp)
  | lock hfree => exact .of_rule 0 0 (.lock hfree) rfl rfl (by simp)
  | recheckFound hl => exact .of_rule {guard .held} 0 (.lookup hl) rfl rfl (by simp)
  | recheckVacant hl => exact .of_rule 0 0 (.findVacant hl) rfl rfl (by simp)
  | lenRefused => exact .of_rule 0 0 .refuse rfl rfl (by simp)
  | lenRoom hn hroom =>
    exact .of_rule 0 0 (.findRoom (Nat.lt_of_le_of_lt hn hroom)) rfl rfl (by simp)
  | evictNext hevict | evictNone hevict =>
    rw [spawnedTokens, Option.elim_none, add_zero]
    exact hevict.moves settings starts call.name
  | evictSome hevict => exact hevict.moves settings starts call.name
  | insert =>
    change Moves _ _ _ (Shared.registry (σ.insertNew _) starts) _
    rw [registry_insertNew]
    exact .of_rule 0 0 .insert rfl rfl (by simp)
  | @unlockSome e =>
    exact .of_rule {acquiring call.name e} 0 .unlock (add_comm _ _) rfl (by simp)
  | unlockNone => exact .of_rule 0 0 .unlock rfl rfl (by simp)
  | @leaseRefused e =>
    exact .of_rule 0 {acquiring call.name e} .idle rfl rfl (by simp [Token.Knowledge])
  | leaseTaken _ hw =>
    rw [registry_setLeases]
    exact .of_rule 0 0 (.lease hw) rfl rfl (by simp)
  | @tenantSlot e hslots =>
    rw [registry_takeTenantSlot]
    exact .of_rule {acquiring call.name e} 0 (.takeTenantSlot hslots) rfl rfl (by simp)
  | @tenantSlotTimeout e =>
    exact .of_rule {Token.lease e .idle} {acquiring call.name e} .idle (add_comm _ _) rfl
      (by simp [Token.Knowledge])
  | @processSlot e hslots =>
    exact .of_rule ({acquiring call.name e} + {Token.lease e .idle} + {Token.tenantSlot e}) 0
      (.takeSlot hslots) rfl rfl (by simp)
  | @processSlotTimeout e =>
    change Moves _ _ _ (Shared.registry (σ.giveTenantSlot e) starts) _
    rw [registry_giveTenantSlot]
    refine .of_rule {Token.lease e .idle} {acquiring call.name e} .giveTenantSlot ?_ rfl
      (by simp [Token.Knowledge])
    simp only [AcquirePc.tokens]
    abel
  | @ensureOpenSet e hset =>
    refine .of_rule ({acquiring call.name e} + slotTokens e) 0
      (.findReady ((OnceCell.opened_stage _).trans hset)) ?_ ?_ (by simp)
    all_goals
      simp only [AcquirePc.tokens, spawnedTokens, Option.elim_none]
      abel
  | @ensureOpenInit e hpools hinit =>
    have hstage : (σ.registry starts).stage e = .unopened := by
      change OnceCell.stage _ = .unopened
      rw [OnceCell.stage, hpools, hinit]
      rfl
    rw [registry_setPools]
    refine .of_rule (slotTokens e) 0 (.openStart (n := call.name) hstage) ?_ ?_ (by simp)
    all_goals
      simp only [AcquirePc.tokens, spawnedTokens, Option.elim_none, Multiset.insert_eq_cons,
        ← Multiset.singleton_add]
      abel
  | @openPools e =>
    rw [registry_setPools]
    refine .of_rule ({acquiring call.name e} + slotTokens e) 0 .opened ?_ ?_ (by simp)
    all_goals
      simp only [AcquirePc.tokens, spawnedTokens, Option.elim_none]
      abel
  | @openPoolsFailed e =>
    rw [registry_setPools]
    exact .of_rule (slotTokens e) 0 (.openFailed (n := call.name) (e := e)) (add_comm _ _)
      (add_comm {Token.lease e (.failing call.name)} (slotTokens e)) (by simp)
  | @removeIf e =>
    exact .of_rule (slotTokens e) 0 .unlinkFailed (add_comm _ _)
      (add_comm {Token.lease e .idle} (slotTokens e)) (by simp)
  | store => exact moves_idle settings starts (registry_setLastUsed ..) rfl
  | @leased e =>
    refine .of_rule (slotTokens e) {acquiring call.name e} .finish ?_
      (add_comm {Token.lease e .idle} (slotTokens e)) (by simp [Token.Knowledge])
    simp only [AcquirePc.tokens]
    abel
  | @dropNext e held _ _ _ _ hdrop =>
    cases held with
    | true => exact hdrop.moves_add settings starts (slotTokens e)
    | false => exact hdrop.moves settings starts
  | @dropSlots e _ _ _ hdrop =>
    have hmoves := hdrop.moves_add settings starts (slotTokens e)
    rwa [Option.elim_none, zero_add] at hmoves
  | dropDone hdrop => exact hdrop.moves settings starts
  | slots =>
    rw [registry_giveSlots]
    exact .of_rule 0 0 .giveSlots rfl rfl (by simp)

/-- The future of `acquire` is dropped. -/
theorem AcquireCancelBranch.moves (name : String) {pc pc' : AcquirePc}
    (h : AcquireCancelBranch σ pc (σ', pc')) :
    Moves (limits settings) (σ.registry starts) (pc.tokens name) (σ'.registry starts)
      (pc'.tokens name) := by
  cases h with
  | lock | yield => exact .refl
  | @tenantSlot e =>
    exact .of_rule {Token.lease e .idle} {acquiring name e} .idle (add_comm _ _) rfl
      (by simp [Token.Knowledge])
  | @processSlot e =>
    rw [registry_giveTenantSlot]
    refine .of_rule {Token.lease e .idle} {acquiring name e} .giveTenantSlot ?_ rfl
      (by simp [Token.Knowledge])
    simp only [AcquirePc.tokens]
    abel
  | @ensureOpen e =>
    refine .of_rule ({Token.lease e .idle} + slotTokens e) {acquiring name e} .idle ?_ rfl
      (by simp [Token.Knowledge])
    simp only [AcquirePc.tokens]
    abel
  | @openPools e =>
    rw [registry_setPools]
    refine .of_rule (slotTokens e) {acquiring name e} .openCancelled ?_ (add_comm _ _)
      (by simp [Token.Knowledge])
    simp only [AcquirePc.tokens]
    abel

theorem CleanupPc.tokens_next (closed : Nat) (rest : List String) :
    (CleanupPc.next closed rest).tokens = 0 := by
  cases rest <;> rfl

/-- A step of `cleanup_idle`. -/
theorem CleanupBranch.moves {pc pc' : CleanupPc} {choice : Choice}
    (h : CleanupBranch settings σ pc choice (σ', pc')) :
    Moves (limits settings) (σ.registry starts) pc.tokens
      (σ'.registry (countStart starts ((Task.cleanupIdle pc).event σ choice))) pc'.tokens := by
  cases h with
  | start | visitIdle | visitLeased | stale | recent | record => exact .refl
  | finish => exact moves_idle settings starts rfl (CleanupPc.tokens_next ..)
  | takeNext htake => exact htake.moves_next settings starts
  | @takeNone pc _ _ _ htake =>
    obtain ⟨rfl, hknow⟩ := htake.knowledge
    exact .of_rule 0 pc.tokens .idle (by simp [CleanupPc.tokens]) (CleanupPc.tokens_next ..) hknow
  | takeSome htake => exact htake.moves_some settings starts
  | closeNext hclose => exact hclose.moves settings starts
  | closeDone hclose =>
    rw [CleanupPc.tokens_next]
    exact hclose.moves settings starts

theorem collectedTokens_cons (e : EntryId) (es : List EntryId) :
    collectedTokens (e :: es) = {collected e} + collectedTokens es := by
  simp [collectedTokens, ← Multiset.cons_coe]

theorem collectedTokens_append (es : List EntryId) (e : EntryId) :
    collectedTokens (es ++ [e]) = collectedTokens es + {collected e} := by
  rw [collectedTokens, ← Multiset.coe_add, Multiset.map_add]
  rfl

theorem doomedTokens_cons (e : EntryId) (es : List EntryId) :
    doomedTokens (e :: es) = {doomed e} + doomedTokens es := by
  simp [doomedTokens, ← Multiset.cons_coe]

theorem CheckpointPc.tokens_next (n : Nat) (rest : List EntryId) :
    (CheckpointPc.next n rest).tokens = collectedTokens rest := by
  cases rest <;> rfl

/-- A step of `checkpoint_wal`. -/
theorem CheckpointBranch.moves {pc pc' : CheckpointPc} {choice : Choice}
    (h : CheckpointBranch σ pc choice (σ', pc')) :
    Moves (limits settings) (σ.registry starts) pc.tokens (σ'.registry starts) pc'.tokens := by
  cases h with
  | start | leaseNext | poolsUnset | record => exact .refl
  | @visit _ _ es _ e hvisit =>
    exact .of_rule (collectedTokens es) 0 (.collect (Scan.visit_eq_some hvisit).1)
      (by simp [CheckpointPc.tokens]) (collectedTokens_append es e) (by simp)
  | finish => exact moves_idle settings starts rfl (CheckpointPc.tokens_next ..)
  | @leaseRefused e _ rest =>
    refine .of_rule (collectedTokens rest) {collected e} .idle ?_ ?_ (by simp [Token.Knowledge])
    · rw [CheckpointPc.tokens, collectedTokens_cons]
      abel
    · rw [CheckpointPc.tokens_next, add_zero]
  | @leaseTaken e _ rest _ _ _ hw =>
    rw [registry_setLeases]
    refine .of_rule (collectedTokens rest) 0 (.leaseCollected (e := e) hw) ?_ (add_comm _ _)
      (by simp)
    rw [CheckpointPc.tokens, collectedTokens_cons]
    abel
  | @poolsSet e rest _ hset =>
    refine .of_rule (collectedTokens rest) 0
      (.findReady ((OnceCell.opened_stage _).trans hset)) ?_ (add_comm _ _) (by simp)
    rw [add_zero]
    exact add_comm _ _
  | @pragma e rest | @pragmaFailed e rest =>
    refine .of_rule (collectedTokens rest) 0 .finish ?_ (add_comm _ _) (by simp)
    rw [add_zero]
    exact add_comm _ _
  | @dropNext _ _ rest _ _ _ hdrop => exact hdrop.moves_add settings starts (collectedTokens rest)
  | @dropDone _ _ rest _ _ hdrop =>
    have hmoves := hdrop.moves_add settings starts (collectedTokens rest)
    rw [Option.elim_none, zero_add] at hmoves
    rwa [CheckpointPc.tokens_next]
  | abortNext hdrop | abortDone hdrop => exact hdrop.moves settings starts

/-- `close_entry` writes to the stages only. -/
theorem CloseBranch.registry_eq {e : EntryId} {pc : ClosePc} {pc' : Option ClosePc}
    (h : CloseBranch σ e pc (σ', pc')) (starts' : EntryId → Nat) :
    σ'.registry starts' =
      { σ.registry starts with starts := starts', stage := (σ'.registry starts').stage } := by
  cases h with
  | unopened | opened | optimize | checkpoint => rfl
  | readers =>
    rw [registry_closeReaders]
    rfl
  | writer =>
    rw [registry_closeWriter]
    rfl

theorem CloseAllPc.tokens_next (rest : List EntryId) :
    (CloseAllPc.next rest).tokens = {Token.shutdown} + doomedTokens rest := by
  cases rest <;> rfl

/-- A step of `close_all`. -/
theorem CloseAllBranch.moves {pc pc' : CloseAllPc} {choice : Choice}
    (h : CloseAllBranch σ pc choice (σ', pc')) :
    Moves (limits settings) (σ.registry starts) pc.tokens
      (σ'.registry (countStart starts ((Task.closeAll pc).event σ choice))) pc'.tokens := by
  cases h with
  | start | finish => exact .refl
  | @visit _ _ es _ e hvisit =>
    refine .of_rule ({Token.shutdown} + collectedTokens es) 0
      (.collect (Scan.visit_eq_some hvisit).1) (by simp [CloseAllPc.tokens]) ?_ (by simp)
    rw [CloseAllPc.tokens, collectedTokens_append, add_assoc]
  | @clear es =>
    exact .of_rule 0 0 (@Rule.clear _ _ _ _ es) (by simp [CloseAllPc.tokens, collectedTokens])
      (by simp [CloseAllPc.tokens_next, doomedTokens]) (by simp)
  | @beginClose e rest hw =>
    change Moves _ _ _ (Shared.registry (σ.setLeases e CLOSED) starts) _
    rw [registry_setLeases]
    refine .of_rule (doomedTokens rest) 0 (.doom (e := e) hw) ?_ (add_comm _ _) (by simp)
    simp only [CloseAllPc.tokens, doomedTokens_cons, Multiset.insert_eq_cons,
      ← Multiset.singleton_add]
    abel
  | @beginCloseFailed e rest =>
    refine .of_rule ({Token.shutdown} + doomedTokens rest) {doomed e} .idle ?_
      (add_zero _).symm (by simp [Token.Knowledge])
    rw [CloseAllPc.tokens, doomedTokens_cons]
    abel
  | @closeNext _ _ rest _ _ hclose =>
    rw [hclose.registry_eq starts]
    refine .of_rule (doomedTokens rest) 0 .shutdownWork ?_ (add_comm _ _) (by simp)
    rw [add_zero]
    exact add_comm _ _
  | @closeDone _ _ rest _ hclose =>
    rw [hclose.registry_eq starts, CloseAllPc.tokens_next]
    refine .of_rule (doomedTokens rest) 0 .shutdownWork ?_ (add_comm _ _) (by simp)
    rw [add_zero]
    exact add_comm _ _

/-- A step of a task is a move of the protocol. -/
theorem TaskBranch.moves {t t' : Task} {choice : Choice} {spawned : List Task}
    (h : TaskBranch settings σ t choice (σ', t', spawned)) :
    Moves (limits settings) (σ.registry starts) t.tokens
      (σ'.registry (countStart starts (t.event σ choice)))
      (t'.tokens + tally Task.tokens spawned) := by
  cases h with
  | @acquire call pc choice _ _ _ spawned h =>
    have hev : countStart starts ((Task.acquire call pc).event σ choice) = starts := by
      cases h <;> simp [Task.event, countStart, *]
    have hspawn : tally Task.tokens (spawned.toList.map fun e => .closeEntry e (some .start)) =
        spawnedTokens spawned := by
      cases spawned <;> rfl
    rw [hev, hspawn]
    exact h.moves settings starts
  | cleanupIdle h =>
    rw [tally_nil, add_zero]
    exact h.moves settings starts
  | checkpointWal h =>
    rw [tally_nil, add_zero]
    exact h.moves settings starts
  | @closeEntry _ _ _ pc' h =>
    have hmoves := h.moves settings starts
    rw [tally_nil, add_zero]
    cases pc' <;> exact hmoves
  | closeAll h =>
    rw [tally_nil, add_zero]
    exact h.moves settings starts

/-- Dropping the future of a task is a move of the protocol. -/
theorem TaskCancelBranch.moves {t t' : Task} (h : TaskCancelBranch σ t (σ', t')) :
    Moves (limits settings) (σ.registry starts) t.tokens (σ'.registry starts) t'.tokens := by
  cases h with
  | @acquire call _ _ _ h => exact h.moves settings starts call.name
  | @cleanupIdle e pc _ _ hpc =>
    refine .of_rule 0 (pc.tokens e) .idle (by simp [Task.tokens, CleanupPc.tokens]) rfl ?_
    cases pc <;> simp_all [ClosePc.tokens, Token.Knowledge]
  | @checkpointWal e rest n =>
    exact .of_rule 0 (collectedTokens rest) .finish
      (by rw [Task.tokens, CheckpointPc.tokens, zero_add]) (zero_add _).symm
      (by simp [collectedTokens, Token.Knowledge])

end Moves

end Tinkiva.Manager
