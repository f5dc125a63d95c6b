import Tinkiva.Manager.Files
import Tinkiva.Settings

/-!
# What the settings are used for

The numbers of the settings reach SQLite and tokio through `open_pools`,
`DatabaseManager::new`, `DatabaseEntry::new` and `cleanup_idle` of `src/src/db.rs`.
On the way they are multiplied and cut to 64 bits, and in a release build a product
that does not fit wraps silently.

`ArithmeticallySafe` says that every number arrives as it was meant.  `validate` does
not give it: `arithmeticallySafe_iff` says exactly which settings have it, and
`validate` only refuses some zeros.
-/

namespace Tinkiva.Manager

open Tinkiva.Config UnixPath

/-! ## `open_pools` -/

/-- `BYTES_PER_MB`. -/
def BYTES_PER_MB : Nat := 1024 * 1024

/-- `DEFAULT_PAGE_SIZE`. -/
def DEFAULT_PAGE_SIZE : Nat := 4096

/-- A product of two `u64` in a release build. -/
def wrappingMul (a b : Nat) : Nat := a * b % 2 ^ 64

/-- `SqliteJournalMode`. -/
inductive SqliteJournalMode where
  | delete
  | truncate
  | persist
  | memory
  | wal
  | off
  deriving DecidableEq, Repr

/-- `SqliteSynchronous`. -/
inductive SqliteSynchronous where
  | off
  | normal
  | full
  | extra
  deriving DecidableEq, Repr

/-- `SqliteConnectOptions`.  `pragmas` are those that are set by name. -/
structure SqliteConnectOptions where
  filename : Path
  createIfMissing : Bool
  foreignKeys : Bool
  journalMode : SqliteJournalMode
  synchronous : SqliteSynchronous
  busyTimeoutMs : Nat
  statementCacheCapacity : Nat
  pragmas : List (String × String)
  deriving DecidableEq, Repr

/-- `SqliteConnectOptions::pragma`, for a name that is not set yet. -/
def SqliteConnectOptions.pragma (options : SqliteConnectOptions) (name value : String) :
    SqliteConnectOptions :=
  { options with pragmas := options.pragmas ++ [(name, value)] }

/-- The text that SQLite is handed as the value of a pragma.  What SQLite makes of it is its
own affair: it reads a `wal_autocheckpoint` of `2 ^ 31` pages or more as zero. -/
def SqliteConnectOptions.value (options : SqliteConnectOptions) (name : String) : Option String :=
  options.pragmas.lookup name

/-- `SqlitePoolOptions`, and the options that the pool connects with. -/
structure SqlitePoolOptions where
  maxConnections : Nat
  minConnections : Nat
  acquireTimeoutSeconds : Nat
  connectOptions : SqliteConnectOptions
  isLazy : Bool
  deriving DecidableEq, Repr

/-- `open_pools`: the pool of the writer and the pool of the readers. -/
def openPools (settings : DatabaseSettings) (path : Path) : SqlitePoolOptions × SqlitePoolOptions :=
  let shared : SqliteConnectOptions :=
    { filename := path
      createIfMissing := true
      foreignKeys := true
      journalMode := .wal
      synchronous := .normal
      busyTimeoutMs := settings.busyTimeoutMs
      statementCacheCapacity := settings.statementCacheCapacity
      pragmas := [] }
  let shared := shared.pragma "mmap_size" (toString (wrappingMul settings.mmapSizeMb BYTES_PER_MB))
  let shared := shared.pragma "temp_store" "MEMORY"
  let walLimitBytes := wrappingMul settings.walSizeLimitMb BYTES_PER_MB
  let writerOptions := shared.pragma "cache_size" ("-" ++ toString settings.writerCacheKb)
  let writerOptions :=
    writerOptions.pragma "wal_autocheckpoint" (toString (walLimitBytes / DEFAULT_PAGE_SIZE))
  let writerOptions := writerOptions.pragma "journal_size_limit" (toString walLimitBytes)
  let writer : SqlitePoolOptions :=
    { maxConnections := 1
      minConnections := 1
      acquireTimeoutSeconds := settings.acquireTimeoutSeconds
      connectOptions := writerOptions
      isLazy := false }
  let readerOptions := shared.pragma "cache_size" ("-" ++ toString settings.readerCacheKb)
  let readerOptions := readerOptions.pragma "query_only" "ON"
  let readers : SqlitePoolOptions :=
    { maxConnections := settings.readerConnections
      minConnections := 0
      acquireTimeoutSeconds := settings.acquireTimeoutSeconds
      connectOptions := readerOptions
      isLazy := true }
  (writer, readers)

/-! ## The semaphores -/

/-- `Semaphore::MAX_PERMITS`, which is `usize::MAX >> 3`. -/
def MAX_PERMITS : Nat := u64Max >>> 3

/-- `Semaphore::new`: the permits, or `none` where it panics. -/
def semaphore (permits : Nat) : Option Nat := if permits ≤ MAX_PERMITS then some permits else none

/-- `DatabaseManager::new`, with the result of `create_dir_all`.  `none` is a panic. -/
def DatabaseManager.new (createDirAll : Except String Unit) (settings : DatabaseSettings) :
    Option (Except String Shared) :=
  match createDirAll with
  | .error error => some (.error error)
  | .ok () =>
    (semaphore settings.maxConcurrentRequests).map fun slots =>
      .ok { Shared.new settings with slots := slots }

/-- The call of `DatabaseEntry::new` in `slot`.  `none` is a panic. -/
def DatabaseEntry.create (settings : DatabaseSettings) (name : String) (nowMs : Nat) :
    Option DatabaseEntry :=
  (semaphore settings.maxConcurrentRequestsPerDatabase).map fun slots =>
    DatabaseEntry.new name slots nowMs

theorem semaphore_ne_none {permits : Nat} : semaphore permits ≠ none ↔ permits ≤ MAX_PERMITS := by
  rw [semaphore]
  split
  · rename_i hle
    simpa using hle
  · rename_i hgt
    simpa using hgt

/-! ## The numbers as they are meant -/

/-- Every number of the settings arrives as it is meant. -/
structure ArithmeticallySafe (settings : DatabaseSettings) : Prop where
  /-- `cleanup_idle` starts with the cutoff that lies the idle timeout back. -/
  cutoff : ∀ σ : Shared, σ.now ≤ u64Max → cleanupStep settings σ .start .go =
    some (σ, .scan (σ.now - 1000 * settings.idleTimeoutSeconds) (.start σ.entries) [])
  mmapSize : ∀ path, ∀ pool ∈ [(openPools settings path).1, (openPools settings path).2],
    pool.connectOptions.value "mmap_size" = some (toString (settings.mmapSizeMb * 2 ^ 20))
  journalSizeLimit : ∀ path, (openPools settings path).1.connectOptions.value "journal_size_limit" =
    some (toString (settings.walSizeLimitMb * 2 ^ 20))
  /-- Zero pages would switch the checkpoints of the writer off. -/
  walAutocheckpoint : ∀ path, ∃ pages, 1 ≤ pages ∧ pages * 4096 = settings.walSizeLimitMb * 2 ^ 20 ∧
    (openPools settings path).1.connectOptions.value "wal_autocheckpoint" = some (toString pages)
  permits : settings.maxConcurrentRequests ≤ MAX_PERMITS ∧
    settings.maxConcurrentRequestsPerDatabase ≤ MAX_PERMITS
  newManager : ∀ createDirAll, DatabaseManager.new createDirAll settings ≠ none
  newEntry : ∀ name nowMs, DatabaseEntry.create settings name nowMs ≠ none

/-- The settings whose numbers fit. -/
structure SettingsFit (settings : DatabaseSettings) : Prop where
  idleTimeout : settings.idleTimeoutSeconds ≤ u64Max / 1000
  mmapSize : settings.mmapSizeMb < 2 ^ 44
  walSizeLimit_pos : 1 ≤ settings.walSizeLimitMb
  walSizeLimit : settings.walSizeLimitMb < 2 ^ 44
  maxConcurrentRequests : settings.maxConcurrentRequests ≤ MAX_PERMITS
  maxConcurrentRequestsPerDatabase : settings.maxConcurrentRequestsPerDatabase ≤ MAX_PERMITS

/-! ## Where each number fits -/

theorem toString_inj {a b : Nat} : toString a = toString b ↔ a = b := by
  constructor
  · intro h
    have hdigits : Nat.toDigits 10 a = Nat.toDigits 10 b := by
      rw [← Nat.toList_repr, ← Nat.toList_repr]
      exact congrArg String.toList h
    have hvalue := congrArg (fun digits => Nat.ofDigitChars 10 digits 0) hdigits
    simpa using hvalue
  · intro h
    rw [h]

/-- A number of megabytes does not wrap. -/
theorem wrappingMul_eq_iff {megabytes : Nat} :
    wrappingMul megabytes BYTES_PER_MB = megabytes * 2 ^ 20 ↔ megabytes < 2 ^ 44 := by
  have hfits : megabytes * 2 ^ 20 < 2 ^ 64 ↔ megabytes < 2 ^ 44 := by omega
  rw [← hfits]
  exact Nat.mod_eq_iff_lt (by decide)

/-- The cutoff is right at every clock value exactly if the timeout does not wrap.  A timeout
that wraps is seen at the greatest clock value: it should reach back to zero, and it is
even, so it does not. -/
theorem cutoff_eq_iff {seconds : Nat} :
    (∀ now, now ≤ u64Max → now - seconds * 1000 % 2 ^ 64 = now - 1000 * seconds) ↔
      seconds ≤ u64Max / 1000 := by
  constructor
  · intro h
    have hlast := h u64Max (Nat.le_refl _)
    simp only [u64Max] at hlast ⊢
    omega
  · intro hfits now _
    rw [Nat.mod_eq_of_lt (by simp only [u64Max] at hfits; omega), Nat.mul_comm]

/-- The pages of the automatic checkpoint are those of the limit, and at least one. -/
theorem walPages_iff {megabytes : Nat} (hfits : megabytes < 2 ^ 44) :
    (∃ pages, 1 ≤ pages ∧ pages * 4096 = megabytes * 2 ^ 20 ∧
      wrappingMul megabytes BYTES_PER_MB / DEFAULT_PAGE_SIZE = pages) ↔ 1 ≤ megabytes := by
  rw [wrappingMul_eq_iff.mpr hfits]
  constructor
  · intro ⟨pages, hone, hpages, _⟩
    omega
  · intro hone
    exact ⟨megabytes * 2 ^ 20 / DEFAULT_PAGE_SIZE, by simp only [DEFAULT_PAGE_SIZE]; omega,
      by simp only [DEFAULT_PAGE_SIZE]; omega, rfl⟩

/-! ## What the connections get -/

section

variable (settings : DatabaseSettings) (path : Path)

theorem openPools_mmapSize :
    ∀ pool ∈ [(openPools settings path).1, (openPools settings path).2],
      pool.connectOptions.value "mmap_size" =
        some (toString (wrappingMul settings.mmapSizeMb BYTES_PER_MB)) := by
  intro pool hpool
  obtain rfl | rfl : pool = (openPools settings path).1 ∨ pool = (openPools settings path).2 := by
    simpa using hpool
  · rfl
  · rfl

theorem openPools_walAutocheckpoint :
    (openPools settings path).1.connectOptions.value "wal_autocheckpoint" =
      some (toString (wrappingMul settings.walSizeLimitMb BYTES_PER_MB / DEFAULT_PAGE_SIZE)) := rfl

theorem openPools_journalSizeLimit :
    (openPools settings path).1.connectOptions.value "journal_size_limit" =
      some (toString (wrappingMul settings.walSizeLimitMb BYTES_PER_MB)) := rfl

end

/-- The cutoff that a call of `cleanup_idle` starts with. -/
theorem cleanupStep_start_iff {settings : DatabaseSettings} :
    (∀ σ : Shared, σ.now ≤ u64Max → cleanupStep settings σ .start .go =
      some (σ, .scan (σ.now - 1000 * settings.idleTimeoutSeconds) (.start σ.entries) [])) ↔
      settings.idleTimeoutSeconds ≤ u64Max / 1000 := by
  rw [← cutoff_eq_iff]
  constructor
  · intro h now hnow
    have hstep := h { Shared.new settings with now := now } hnow
    simp only [cleanupStep, DatabaseSettings.idleTimeoutMs, Option.some.injEq, Prod.mk.injEq,
      CleanupPc.scan.injEq] at hstep
    exact hstep.2.1
  · intro h σ hnow
    rw [cleanupStep, DatabaseSettings.idleTimeoutMs, h σ.now hnow]

theorem newManager_iff {settings : DatabaseSettings} :
    (∀ createDirAll, DatabaseManager.new createDirAll settings ≠ none) ↔
      settings.maxConcurrentRequests ≤ MAX_PERMITS := by
  rw [← semaphore_ne_none]
  constructor
  · intro h hnone
    apply h (.ok ())
    rw [DatabaseManager.new, hnone]
    rfl
  · intro hsome createDirAll
    cases createDirAll with
    | error error => exact Option.some_ne_none _
    | ok => simpa [DatabaseManager.new] using hsome

theorem newEntry_iff {settings : DatabaseSettings} :
    (∀ name nowMs, DatabaseEntry.create settings name nowMs ≠ none) ↔
      settings.maxConcurrentRequestsPerDatabase ≤ MAX_PERMITS := by
  rw [← semaphore_ne_none]
  constructor
  · intro h hnone
    apply h "" 0
    rw [DatabaseEntry.create, hnone]
    rfl
  · intro hsome name nowMs
    simpa [DatabaseEntry.create] using hsome

/-- Numbers that arrive as they are meant fit. -/
theorem ArithmeticallySafe.fit {settings : DatabaseSettings} (h : ArithmeticallySafe settings) :
    SettingsFit settings := by
  have hwal := h.journalSizeLimit []
  rw [openPools_journalSizeLimit, Option.some_inj, toString_inj, wrappingMul_eq_iff] at hwal
  have hmmap := h.mmapSize [] _ List.mem_cons_self
  rw [openPools_mmapSize settings [] _ List.mem_cons_self, Option.some_inj, toString_inj,
    wrappingMul_eq_iff] at hmmap
  obtain ⟨pages, hone, hpages, _⟩ := h.walAutocheckpoint []
  exact
    { idleTimeout := cleanupStep_start_iff.mp h.cutoff
      mmapSize := hmmap
      walSizeLimit_pos := by omega
      walSizeLimit := hwal
      maxConcurrentRequests := h.permits.1
      maxConcurrentRequestsPerDatabase := h.permits.2 }

/-- Numbers that fit arrive as they are meant. -/
theorem SettingsFit.safe {settings : DatabaseSettings} (h : SettingsFit settings) :
    ArithmeticallySafe settings where
  cutoff := cleanupStep_start_iff.mpr h.idleTimeout
  mmapSize := by
    intro path pool hpool
    rw [openPools_mmapSize settings path pool hpool, wrappingMul_eq_iff.mpr h.mmapSize]
  journalSizeLimit := by
    intro path
    rw [openPools_journalSizeLimit, wrappingMul_eq_iff.mpr h.walSizeLimit]
  walAutocheckpoint := by
    intro path
    obtain ⟨pages, hone, hpages, hdiv⟩ := (walPages_iff h.walSizeLimit).mpr h.walSizeLimit_pos
    refine ⟨pages, hone, hpages, ?_⟩
    rw [openPools_walAutocheckpoint, hdiv]
  permits := ⟨h.maxConcurrentRequests, h.maxConcurrentRequestsPerDatabase⟩
  newManager := newManager_iff.mpr h.maxConcurrentRequests
  newEntry := newEntry_iff.mpr h.maxConcurrentRequestsPerDatabase

/-- The numbers of the settings arrive as they are meant exactly if they fit. -/
theorem arithmeticallySafe_iff (settings : DatabaseSettings) :
    ArithmeticallySafe settings ↔ SettingsFit settings :=
  ⟨ArithmeticallySafe.fit, SettingsFit.safe⟩

/-! ## What `validate` accepts -/

/-- The default settings without a limit for the log. -/
def noWalLimit : Settings :=
  { Settings.default with database := { DatabaseSettings.default with walSizeLimitMb := 0 } }

/-- With a limit of zero megabytes, which is accepted, the automatic checkpoint is off. -/
theorem noWalLimit_checkpoint :
    noWalLimit.validate = .ok () ∧ ∀ path,
      (openPools noWalLimit.database path).1.connectOptions.value "wal_autocheckpoint" =
        some "0" :=
  ⟨rfl, fun _ => rfl⟩

theorem noWalLimit_inRange : noWalLimit.InRange := by
  constructor <;> decide

/-- Settings that `validate` accepts need not be safe. -/
theorem validated_not_safe :
    ¬∀ settings : Settings, settings.InRange → settings.validate = .ok () →
      ArithmeticallySafe settings.database := by
  intro h
  have hsafe := h noWalLimit noWalLimit_inRange noWalLimit_checkpoint.1
  obtain ⟨pages, hone, _, hvalue⟩ := hsafe.walAutocheckpoint []
  rw [noWalLimit_checkpoint.2 []] at hvalue
  have hpages : toString 0 = toString pages := Option.some.inj hvalue
  rw [toString_inj] at hpages
  omega

end Tinkiva.Manager
