import Tinkiva.Manager.State

/-!
# The tasks of the database manager

The asynchronous functions of `src/src/db.rs` as state machines.  A program
counter says which atomic operation a task does next, and the step functions
follow the source branch by branch.  A step does one atomic operation on the
shared state and then runs to the next one.

Each function of the source that a caller waits for is its own machine:
`lease`, `take`, `evict_oldest_idle`, `close_entry` and the drop of a
`DatabaseLease`.  `acquire`, `cleanup_idle`, `checkpoint_wal` and `close_all`
are built from them.

Where the environment decides, the step takes a `Choice`: whether a wait times
out, whether a weak exchange fails spuriously, whether SQLite answers with an
error, which binding an iterator yields next, and what `DashMap::len` reports.
`len` reads the shards one after the other, so while entries are being removed
it may report more than are left; it never reports fewer.

A relaxed counter of `Metrics` is read by no task, so its increment is done in
the step of the operation before it; `Tinkiva.Manager.Counters` makes it a step of
its own.  The admission wait histogram is left out.
-/

namespace Tinkiva.Manager

open Tinkiva.Config ConcurrentMap

/-- What the environment picks in a step. -/
inductive Choice where
  | go
  | fail
  | visit (name : String)
  | count (entries : Nat)
  deriving DecidableEq, Repr

/-! ## `DatabaseEntry::lease` -/

/-- A value of `current` that has passed the test at the head of the loop. -/
abbrev OpenWord := { word : Nat // word ≠ CLOSED }

inductive LeasePc where
  | load
  | compareExchange (current : OpenWord)
  deriving DecidableEq, Repr

inductive LeaseStep where
  | next (pc : LeasePc)
  | refused
  | leased (word : Nat)
  deriving DecidableEq, Repr

/-- The head of the loop, with the value of `current`. -/
def leaseLoop (current : Nat) : LeaseStep :=
  if h : current = CLOSED then .refused else .next (.compareExchange ⟨current, h⟩)

/-- One step of `lease` on an entry whose `active_leases` is `word`.  A failed
exchange, spurious or not, loops with the value it saw. -/
def leaseStep (word : Nat) : LeasePc → Choice → Option LeaseStep
  | .load, .go => some (leaseLoop word)
  | .compareExchange current, .go =>
    some (if word = current.1 then .leased (current.1 + 1) else leaseLoop word)
  | .compareExchange _, .fail => some (leaseLoop word)
  | _, _ => none

/-! ## `DatabaseManager::take` -/

inductive TakePc where
  | get (name : String)
  | beginClose (name : String) (entry : EntryId)
  | remove (name : String) (entry : EntryId)
  deriving DecidableEq, Repr

inductive TakeStep where
  | next (pc : TakePc)
  | returned (entry : Option EntryId)
  deriving DecidableEq, Repr

/-- `begin_close`: exchanges a lease count of `0` for `CLOSED`. -/
def beginClose (σ : Shared) (e : EntryId) : Option Shared :=
  if (σ.heap e).activeLeases = 0 then some (σ.setLeases e CLOSED) else none

/-- One step of `take`. -/
def takeStep (σ : Shared) : TakePc → Shared × TakeStep
  | .get name =>
    match σ.entries.lookup name with
    | none => (σ, .returned none)
    | some e => (σ, .next (.beginClose name e))
  | .beginClose name e =>
    match beginClose σ e with
    | none => (σ, .returned none)
    | some σ' => (σ', .next (.remove name e))
  | .remove name e => ({ σ with entries := σ.entries.erase name }, .returned (some e))

/-! ## `close_entry` -/

inductive ClosePc where
  | start
  | readers
  | optimize
  | checkpoint
  | writer
  deriving DecidableEq, Repr

/-- One step of `close_entry`; `none` is its return.  The two `PRAGMA`s run on
the writer and their results are ignored. -/
def closeStep (σ : Shared) (e : EntryId) : ClosePc → Shared × Option ClosePc
  | .start =>
    match (σ.heap e).pools.value with
    | none => (σ, none)
    | some _ => (σ, some .readers)
  | .readers =>
    (σ.updatePools e fun pools => { pools with readers := ⟨true⟩ }, some .optimize)
  | .optimize => (σ, some .checkpoint)
  | .checkpoint => (σ, some .writer)
  | .writer => (σ.updatePools e fun pools => { pools with writer := ⟨true⟩ }, none)

/-! ## `Drop for DatabaseLease` -/

inductive DropPc where
  | touch
  | store (nowMs : Nat)
  | fetchSub
  deriving DecidableEq, Repr

/-- One step of the drop of a lease; `none` is its end.  `touch` reads the
clock and stores it in two steps. -/
def dropStep (σ : Shared) (e : EntryId) : DropPc → Shared × Option DropPc
  | .touch => (σ, some (.store σ.now))
  | .store nowMs => (σ.setLastUsed e nowMs, some .fetchSub)
  | .fetchSub => (σ.fetchSub e, none)

/-! ## `DatabaseManager::evict_oldest_idle` -/

inductive EvictPc where
  | scan (scan : Scan String EntryId) (candidate : Option (String × Nat))
  | lastUsed (scan : Scan String EntryId) (candidate : Option (String × Nat))
      (name : String) (entry : EntryId)
  | take (pc : TakePc)
  deriving DecidableEq

inductive EvictStep where
  | next (pc : EvictPc)
  | returned (entry : Option EntryId)
  deriving DecidableEq

/-- One step of `evict_oldest_idle`.  It returns the entry whose `close_entry`
it spawns. -/
def evictStep (σ : Shared) : EvictPc → Choice → Option (Shared × EvictStep)
  | .scan sc candidate, .visit name =>
    match sc.visit σ.entries name with
    | none => none
    | some (e, sc') =>
      if (σ.heap e).activeLeases ≠ 0 then some (σ, .next (.scan sc' candidate))
      else some (σ, .next (.lastUsed sc' candidate name e))
  | .scan sc candidate, .go =>
    if sc.finished σ.entries then
      match candidate with
      | none => some (σ, .returned none)
      | some (name, _) => some (σ, .next (.take (.get name)))
    else none
  | .lastUsed sc candidate name e, .go =>
    let lastUsed := (σ.heap e).lastUsedMs
    let older := candidate.all fun c => decide (lastUsed < c.2)
    some (σ, .next (.scan sc (if older then some (name, lastUsed) else candidate)))
  | .take pc, .go =>
    match takeStep σ pc with
    | (σ', .next pc') => some (σ', .next (.take pc'))
    | (σ', .returned none) => some (σ', .returned none)
    | (σ', .returned (some e)) => some (σ'.recordEviction, .returned (some e))
  | _, _ => none

/-! ## `DatabaseManager::acquire` -/

/-- The arguments of a call of `acquire`: the name, and the round of the
`for` loop. -/
structure Call where
  name : String
  attempt : Nat
  deriving DecidableEq, Repr

/-- `get` to `unlock` are the body of `slot`; the admission guard is held from
`recheck` to `unlock`.  `leased` is a caller that has returned its lease and
uses it.  `drop` is the drop of the lease, where `held` says whether `_slots` is
`Some`, and `slots` the drop of its field after it. -/
inductive AcquirePc where
  | get
  | lock
  | recheck
  | len (attempts : Nat)
  | evict (attempts : Nat) (pc : EvictPc)
  | create
  | insert (nowMs : Nat)
  | unlock (entry : Option EntryId)
  | lease (entry : EntryId) (pc : LeasePc)
  | yield
  | tenantSlot (entry : EntryId)
  | processSlot (entry : EntryId)
  | ensureOpen (entry : EntryId)
  | openPools (entry : EntryId)
  | removeIf (entry : EntryId)
  | touch (entry : EntryId)
  | store (entry : EntryId) (nowMs : Nat)
  | leased (entry : EntryId)
  | drop (entry : EntryId) (held : Bool) (error : Option AppError) (pc : DropPc)
  | slots (entry : EntryId) (error : Option AppError)
  | done (error : Option AppError)
  deriving DecidableEq

/-- The error of a failed `open_pools`. -/
def openError : AppError := .database ⟨false, "error opening the database"⟩

/-- One step of `acquire` and of the caller that uses the lease.  The last
component is the entry whose `close_entry` an eviction spawns. -/
def acquireStep (settings : DatabaseSettings) (σ : Shared) (call : Call) :
    AcquirePc → Choice → Option (Shared × Call × AcquirePc × Option EntryId)
  | .get, .go =>
    match σ.entries.lookup call.name with
    | some e => some (σ, call, .lease e .load, none)
    | none => some (σ, call, .lock, none)
  | .lock, .go =>
    if σ.admission then none else some ({ σ with admission := true }, call, .recheck, none)
  | .recheck, .go =>
    match σ.entries.lookup call.name with
    | some e => some (σ, call, .unlock (some e), none)
    | none => some (σ, call, .len 0, none)
  | .len attempts, .count n =>
    if size σ.entries ≤ n then
      if settings.maxOpenDatabases ≤ n then
        if MAX_ATTEMPTS < attempts + 1 then some (σ, call, .unlock none, none)
        else some (σ, call, .evict (attempts + 1) (.scan (.start σ.entries) none), none)
      else some (σ, call, .create, none)
    else none
  | .evict attempts pc, choice =>
    match evictStep σ pc choice with
    | none => none
    | some (σ', .next pc') => some (σ', call, .evict attempts pc', none)
    | some (σ', .returned none) => some (σ', call, .unlock none, none)
    | some (σ', .returned (some e)) => some (σ', call, .len attempts, some e)
  | .create, .go => some (σ, call, .insert σ.now, none)
  | .insert nowMs, .go =>
    let entry := DatabaseEntry.new call.name settings.maxConcurrentRequestsPerDatabase nowMs
    some ((σ.insertNew entry).recordOpen, call, .unlock (some σ.created), none)
  | .unlock (some e), .go =>
    some ({ σ with admission := false }, call, .lease e .load, none)
  | .unlock none, .go =>
    some ({ σ with admission := false }, call, .done (some .capacityBusy), none)
  | .lease e pc, choice =>
    match leaseStep (σ.heap e).activeLeases pc choice with
    | none => none
    | some (.next pc') => some (σ, call, .lease e pc', none)
    | some .refused => some (σ, call, .yield, none)
    | some (.leased word) => some (σ.setLeases e word, call, .tenantSlot e, none)
  | .yield, .go =>
    if call.attempt + 1 < MAX_ATTEMPTS then
      some (σ, { call with attempt := call.attempt + 1 }, .get, none)
    else some (σ, call, .done (some .capacityBusy), none)
  | .tenantSlot e, .go =>
    if 0 < (σ.heap e).slots then some (σ.takeTenantSlot e, call, .processSlot e, none)
    else none
  | .tenantSlot e, .fail =>
    some (σ.recordShed, call, .drop e false (some .overloaded) .touch, none)
  | .processSlot e, .go =>
    if 0 < σ.slots then some ({ σ with slots := σ.slots - 1 }, call, .ensureOpen e, none)
    else none
  | .processSlot e, .fail =>
    some ((σ.giveTenantSlot e).recordShed, call,
      .drop e false (some .overloaded) .touch, none)
  | .ensureOpen e, .go =>
    if (σ.heap e).pools.value.isSome then some (σ, call, .touch e, none)
    else if (σ.heap e).pools.initializing then none
    else some (σ.setPools e ⟨none, true⟩, call, .openPools e, none)
  | .openPools e, .go => some (σ.setPools e ⟨some .fresh, false⟩, call, .touch e, none)
  | .openPools e, .fail => some (σ.setPools e ⟨none, false⟩, call, .removeIf e, none)
  | .removeIf e, .go =>
    some ({ σ with entries := eraseIf σ.entries call.name e }, call,
      .drop e true (some openError) .touch, none)
  | .touch e, .go => some (σ, call, .store e σ.now, none)
  | .store e nowMs, .go => some (σ.setLastUsed e nowMs, call, .leased e, none)
  | .leased e, .go => some (σ, call, .drop e true none .touch, none)
  | .drop e held error pc, .go =>
    match dropStep σ e pc with
    | (σ', some pc') => some (σ', call, .drop e held error pc', none)
    | (σ', none) => some (σ', call, if held then .slots e error else .done error, none)
  | .slots e error, .go => some (σ.giveSlots e, call, .done error, none)
  | _, _ => none

/-- The future of `acquire` is dropped at an `await`.  Its locals are dropped:
the tenant permit before the lease, and the permit of the `OnceCell` before
both. -/
def acquireCancel (σ : Shared) : AcquirePc → Option (Shared × AcquirePc)
  | .lock => some (σ, .done none)
  | .yield => some (σ, .done none)
  | .tenantSlot e => some (σ, .drop e false none .touch)
  | .processSlot e => some (σ.giveTenantSlot e, .drop e false none .touch)
  | .ensureOpen e => some (σ, .drop e true none .touch)
  | .openPools e => some (σ.setPools e ⟨none, false⟩, .drop e true none .touch)
  | _ => none

/-! ## `DatabaseManager::cleanup_idle` -/

inductive CleanupPc where
  | start
  | scan (cutoff : Nat) (scan : Scan String EntryId) (stale : List String)
  | lastUsed (cutoff : Nat) (scan : Scan String EntryId) (stale : List String)
      (name : String) (entry : EntryId)
  | take (pc : TakePc) (rest : List String) (closed : Nat)
  | close (entry : EntryId) (pc : ClosePc) (rest : List String) (closed : Nat)
  | record (closed : Nat)
  | done (closed : Option Nat)
  deriving DecidableEq

/-- The head of `for name in stale`. -/
def CleanupPc.next (closed : Nat) : List String → CleanupPc
  | [] => .record closed
  | name :: rest => .take (.get name) rest closed

/-- One step of `cleanup_idle`. -/
def cleanupStep (settings : DatabaseSettings) (σ : Shared) :
    CleanupPc → Choice → Option (Shared × CleanupPc)
  | .start, .go =>
    some (σ, .scan (σ.now - settings.idleTimeoutMs) (.start σ.entries) [])
  | .scan cutoff sc stale, .visit name =>
    match sc.visit σ.entries name with
    | none => none
    | some (e, sc') =>
      if (σ.heap e).activeLeases = 0 then some (σ, .lastUsed cutoff sc' stale name e)
      else some (σ, .scan cutoff sc' stale)
  | .scan _ sc stale, .go =>
    if sc.finished σ.entries then some (σ, .next 0 stale) else none
  | .lastUsed cutoff sc stale name e, .go =>
    if (σ.heap e).lastUsedMs ≤ cutoff then some (σ, .scan cutoff sc (stale ++ [name]))
    else some (σ, .scan cutoff sc stale)
  | .take pc rest closed, .go =>
    match takeStep σ pc with
    | (σ', .next pc') => some (σ', .take pc' rest closed)
    | (σ', .returned none) => some (σ', .next closed rest)
    | (σ', .returned (some e)) => some (σ', .close e .start rest closed)
  | .close e pc rest closed, .go =>
    match closeStep σ e pc with
    | (σ', some pc') => some (σ', .close e pc' rest closed)
    | (σ', none) => some (σ', .next (closed + 1) rest)
  | .record closed, .go => some (σ.recordIdleClose closed, .done (some closed))
  | _, _ => none

/-- The task of `cleanup_idle` is aborted while it awaits a `close_entry`. -/
def cleanupCancel (σ : Shared) : CleanupPc → Option (Shared × CleanupPc)
  | .close _ .start _ _ => none
  | .close _ _ _ _ => some (σ, .done none)
  | _ => none

/-! ## `DatabaseManager::checkpoint_wal` -/

inductive CheckpointPc where
  | start
  | scan (scan : Scan String EntryId) (entries : List EntryId)
  | lease (entry : EntryId) (pc : LeasePc) (rest : List EntryId) (checkpointed : Nat)
  | pools (entry : EntryId) (rest : List EntryId) (checkpointed : Nat)
  | pragma (entry : EntryId) (rest : List EntryId) (checkpointed : Nat)
  | drop (entry : EntryId) (pc : DropPc) (rest : List EntryId) (checkpointed : Nat)
  | abort (entry : EntryId) (pc : DropPc)
  | record (checkpointed : Nat)
  | done (checkpointed : Option Nat)
  deriving DecidableEq

/-- The head of `for entry in entries`. -/
def CheckpointPc.next (checkpointed : Nat) : List EntryId → CheckpointPc
  | [] => .record checkpointed
  | e :: rest => .lease e .load rest checkpointed

/-- One step of `checkpoint_wal`.  Its leases carry no permits. -/
def checkpointStep (σ : Shared) : CheckpointPc → Choice → Option (Shared × CheckpointPc)
  | .start, .go => some (σ, .scan (.start σ.entries) [])
  | .scan sc entries, .visit name =>
    match sc.visit σ.entries name with
    | none => none
    | some (e, sc') => some (σ, .scan sc' (entries ++ [e]))
  | .scan sc entries, .go =>
    if sc.finished σ.entries then some (σ, .next 0 entries) else none
  | .lease e pc rest n, choice =>
    match leaseStep (σ.heap e).activeLeases pc choice with
    | none => none
    | some (.next pc') => some (σ, .lease e pc' rest n)
    | some .refused => some (σ, .next n rest)
    | some (.leased word) => some (σ.setLeases e word, .pools e rest n)
  | .pools e rest n, .go =>
    if (σ.heap e).pools.value.isNone then some (σ, .drop e .touch rest n)
    else some (σ, .pragma e rest n)
  | .pragma e rest n, .go => some (σ, .drop e .touch rest (n + 1))
  | .pragma e rest n, .fail => some (σ, .drop e .touch rest n)
  | .drop e pc rest n, .go =>
    match dropStep σ e pc with
    | (σ', some pc') => some (σ', .drop e pc' rest n)
    | (σ', none) => some (σ', .next n rest)
  | .abort e pc, .go =>
    match dropStep σ e pc with
    | (σ', some pc') => some (σ', .abort e pc')
    | (σ', none) => some (σ', .done none)
  | .record n, .go => some (σ.recordCheckpoints n, .done (some n))
  | _, _ => none

/-- The task of `checkpoint_wal` is aborted while it awaits its `PRAGMA`. -/
def checkpointCancel (σ : Shared) : CheckpointPc → Option (Shared × CheckpointPc)
  | .pragma e _ _ => some (σ, .abort e .touch)
  | _ => none

/-! ## `DatabaseManager::close_all` -/

inductive CloseAllPc where
  | start
  | scan (scan : Scan String EntryId) (entries : List EntryId)
  | clear (entries : List EntryId)
  | beginClose (entry : EntryId) (rest : List EntryId)
  | close (entry : EntryId) (pc : ClosePc) (rest : List EntryId)
  | done
  deriving DecidableEq

/-- The head of `for entry in entries`. -/
def CloseAllPc.next : List EntryId → CloseAllPc
  | [] => .done
  | e :: rest => .beginClose e rest

/-- One step of `close_all`.  The result of `begin_close` is ignored. -/
def closeAllStep (σ : Shared) : CloseAllPc → Choice → Option (Shared × CloseAllPc)
  | .start, .go => some (σ, .scan (.start σ.entries) [])
  | .scan sc entries, .visit name =>
    match sc.visit σ.entries name with
    | none => none
    | some (e, sc') => some (σ, .scan sc' (entries ++ [e]))
  | .scan sc entries, .go =>
    if sc.finished σ.entries then some (σ, .clear entries) else none
  | .clear entries, .go => some ({ σ with entries := ∅ }, .next entries)
  | .beginClose e rest, .go => some ((beginClose σ e).getD σ, .close e .start rest)
  | .close e pc rest, .go =>
    match closeStep σ e pc with
    | (σ', some pc') => some (σ', .close e pc' rest)
    | (σ', none) => some (σ', .next rest)
  | _, _ => none

end Tinkiva.Manager
