import Tinkiva.Config
import Tinkiva.Error
import Tinkiva.Lib.ConcurrentMap
import Tinkiva.Lib.SentinelCounter
import Mathlib.Algebra.Group.Nat.Defs
import Mathlib.Logic.Function.Basic

/-!
# The shared state of the database manager

What `DatabaseManager` of `src/src/db.rs` shares between its callers, and the
atomic operations on it.  Each operation here is one indivisible step of the
program: one operation on an atomic, on the `DashMap`, on a semaphore, on the
admission mutex or on a `OnceCell`.  The programs that call them are in
`Tinkiva.Manager.Task`.

An `Arc<DatabaseEntry>` is an `EntryId`.  The entries are numbered in the order
of their creation, and `heap` keeps every entry ever created, linked or not.

A machine word of type `usize` is a natural number.  `CLOSED` is the greatest
of them, and `fetch_sub` wraps.
-/

namespace Tinkiva.Manager

open Tinkiva.Config

/-- Names one `Arc<DatabaseEntry>` allocation. -/
abbrev EntryId := Nat

/-- `CLOSED = usize::MAX`, the lease count of an entry that is closing. -/
def CLOSED : Nat := 2 ^ 64 - 1

/-- `MAX_ATTEMPTS`, the bound on the retries around a concurrent eviction. -/
def MAX_ATTEMPTS : Nat := 16

/-- `sqlx::SqlitePool`, as far as `close` shows it. -/
structure SqlitePool where
  closed : Bool
  deriving DecidableEq, Repr

/-- `Pools`. -/
structure Pools where
  writer : SqlitePool
  readers : SqlitePool
  deriving DecidableEq, Repr

/-- The pools that `open_pools` returns. -/
def Pools.fresh : Pools := ⟨⟨false⟩, ⟨false⟩⟩

/-- `tokio::sync::OnceCell`: the value, and whether a caller of
`get_or_try_init` is running its initialiser. -/
structure OnceCell (α : Type) where
  value : Option α
  initializing : Bool
  deriving DecidableEq, Repr

/-- `DatabaseEntry`.  `slots` is the number of available permits of its
semaphore. -/
structure DatabaseEntry where
  name : String
  pools : OnceCell Pools
  lastUsedMs : Nat
  activeLeases : Nat
  slots : Nat
  deriving DecidableEq, Repr

/-- `DatabaseEntry::new`, at the clock value that `now_ms` gave it. -/
def DatabaseEntry.new (name : String) (slots nowMs : Nat) : DatabaseEntry where
  name := name
  pools := ⟨none, false⟩
  lastUsedMs := nowMs
  activeLeases := 0
  slots := slots

/-- The pools of an entry are open: `open_pools` has returned them and
`close_entry` has not closed the writer yet. -/
def DatabaseEntry.alive (entry : DatabaseEntry) : Bool :=
  entry.pools.value.any fun pools => !pools.writer.closed

/-- The counters of `Metrics` that the manager increments. -/
structure Metrics where
  requestsShed : Nat
  databasesOpened : Nat
  databasesEvicted : Nat
  databasesClosedIdle : Nat
  walCheckpoints : Nat
  deriving DecidableEq, Repr

/-- What the tasks of one `DatabaseManager` share.  `admission` says whether
the admission mutex is locked, `slots` is the number of available permits of
the process semaphore, and `now` is what `now_ms` reads. -/
structure Shared where
  entries : ConcurrentMap.Map String EntryId
  heap : EntryId → DatabaseEntry
  created : Nat
  admission : Bool
  slots : Nat
  metrics : Metrics
  now : Nat

/-- `DatabaseManager::new`. -/
def Shared.new (settings : DatabaseSettings) : Shared where
  entries := ∅
  heap := fun _ => DatabaseEntry.new "" 0 0
  created := 0
  admission := false
  slots := settings.maxConcurrentRequests
  metrics := ⟨0, 0, 0, 0, 0⟩
  now := 0

namespace Shared

/-- Replaces one entry of the heap. -/
def modify (σ : Shared) (e : EntryId) (f : DatabaseEntry → DatabaseEntry) : Shared :=
  { σ with heap := Function.update σ.heap e (f (σ.heap e)) }

/-- A store to `active_leases`. -/
def setLeases (σ : Shared) (e : EntryId) (word : Nat) : Shared :=
  σ.modify e fun entry => { entry with activeLeases := word }

/-- `active_leases.fetch_sub(1)`. -/
def fetchSub (σ : Shared) (e : EntryId) : Shared :=
  σ.setLeases e (SentinelCounter.fetchSub CLOSED (σ.heap e).activeLeases)

/-- `last_used_ms.store(..)`. -/
def setLastUsed (σ : Shared) (e : EntryId) (nowMs : Nat) : Shared :=
  σ.modify e fun entry => { entry with lastUsedMs := nowMs }

/-- The state of the `OnceCell` of an entry. -/
def setPools (σ : Shared) (e : EntryId) (cell : OnceCell Pools) : Shared :=
  σ.modify e fun entry => { entry with pools := cell }

/-- Writes to the pools of an entry that has some. -/
def updatePools (σ : Shared) (e : EntryId) (f : Pools → Pools) : Shared :=
  σ.setPools e { (σ.heap e).pools with value := (σ.heap e).pools.value.map f }

/-- A permit of the tenant semaphore is taken. -/
def takeTenantSlot (σ : Shared) (e : EntryId) : Shared :=
  σ.modify e fun entry => { entry with slots := entry.slots - 1 }

/-- A permit of the tenant semaphore is given back. -/
def giveTenantSlot (σ : Shared) (e : EntryId) : Shared :=
  σ.modify e fun entry => { entry with slots := entry.slots + 1 }

/-- `drop(_slots)`: both permits of a lease are given back. -/
def giveSlots (σ : Shared) (e : EntryId) : Shared :=
  { σ.giveTenantSlot e with slots := σ.slots + 1 }

/-- `entries.insert(name, Arc::new(entry))` with a new entry. -/
def insertNew (σ : Shared) (entry : DatabaseEntry) : Shared :=
  { σ with
    entries := σ.entries.insert entry.name σ.created
    heap := Function.update σ.heap σ.created entry
    created := σ.created + 1 }

/-- `metrics.record_shed()`. -/
def recordShed (σ : Shared) : Shared :=
  { σ with metrics := { σ.metrics with requestsShed := σ.metrics.requestsShed + 1 } }

/-- `metrics.record_open()`. -/
def recordOpen (σ : Shared) : Shared :=
  { σ with metrics := { σ.metrics with databasesOpened := σ.metrics.databasesOpened + 1 } }

/-- `metrics.record_eviction()`. -/
def recordEviction (σ : Shared) : Shared :=
  { σ with metrics := { σ.metrics with databasesEvicted := σ.metrics.databasesEvicted + 1 } }

/-- `metrics.record_idle_close(databases)`. -/
def recordIdleClose (σ : Shared) (databases : Nat) : Shared :=
  { σ with
    metrics := { σ.metrics with
      databasesClosedIdle := σ.metrics.databasesClosedIdle + databases } }

/-- `metrics.record_checkpoints(databases)`. -/
def recordCheckpoints (σ : Shared) (databases : Nat) : Shared :=
  { σ with
    metrics := { σ.metrics with walCheckpoints := σ.metrics.walCheckpoints + databases } }

/-! ## What an operation leaves alone -/

theorem heap_modify (σ : Shared) (e j : EntryId) (f : DatabaseEntry → DatabaseEntry) :
    (σ.modify e f).heap j = if j = e then f (σ.heap e) else σ.heap j := by
  simp [modify, Function.update_apply]

@[simp] theorem heap_modify_self (σ : Shared) (e : EntryId)
    (f : DatabaseEntry → DatabaseEntry) : (σ.modify e f).heap e = f (σ.heap e) := by
  simp [modify]

end Shared

/-- `validate_database_name`. -/
def validateDatabaseName (name : String) : Except AppError Unit :=
  let bytes := name.toUTF8.data.toList
  let alphanumeric (b : UInt8) : Bool :=
    (48 ≤ b && b ≤ 57) || (65 ≤ b && b ≤ 90) || (97 ≤ b && b ≤ 122)
  let valid :=
    !bytes.isEmpty && decide (bytes.length ≤ 64) && bytes.head?.any alphanumeric &&
      bytes.all fun b => alphanumeric b || b == 45 || b == 95
  if valid then .ok () else .error .invalidDatabaseName

end Tinkiva.Manager
