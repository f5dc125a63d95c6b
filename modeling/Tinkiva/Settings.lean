import Tinkiva.Config

/-!
# Loading the settings

`Settings::load` of `src/src/config.rs`: the TOML file or the defaults, then the
environment, then `validate`.  A number from the environment is read as Rust reads an
unsigned integer of its width; a `usize` has 64 bits.  What the program finds outside,
a file, the TOML in it and the environment, is an `Outside`.

An error is its outermost text.
-/

namespace Tinkiva.Config

/-- `ServerSettings`. -/
structure ServerSettings where
  bind : String
  authToken : Option String
  bodyLimitBytes : Nat
  requestTimeoutSeconds : Nat
  deriving DecidableEq, Repr

/-- `impl Default for ServerSettings`. -/
def ServerSettings.default : ServerSettings where
  bind := "127.0.0.1:7000"
  authToken := none
  bodyLimitBytes := 1048576
  requestTimeoutSeconds := 30

/-- `Settings`. -/
structure Settings where
  server : ServerSettings
  database : DatabaseSettings
  deriving DecidableEq, Repr

/-- `Settings::default`. -/
def Settings.default : Settings := ⟨.default, .default⟩

/-- `std::fs::read_to_string`, `toml::from_str` and `std::env::var`, where they succeed. -/
structure Outside where
  readToString : String → Option String
  fromStr : String → Option Settings
  var : String → Option String

/-- `u32::MAX`. -/
def u32Max : Nat := 2 ^ 32 - 1

/-- `u64::MAX` and `usize::MAX`. -/
def u64Max : Nat := 2 ^ 64 - 1

/-- The digits of `str::parse` for an unsigned integer. -/
def parseDigits (max : Nat) : Nat → List Char → Except String Nat
  | value, [] => .ok value
  | value, c :: rest =>
    if c.isDigit then
      if value * 10 + (c.toNat - 48) ≤ max then parseDigits max (value * 10 + (c.toNat - 48)) rest
      else .error "number too large to fit in target type"
    else .error "invalid digit found in string"

/-- `str::parse` for an unsigned integer. -/
def parseUnsigned (max : Nat) (text : String) : Except String Nat :=
  match text.toList with
  | [] => .error "cannot parse integer from empty string"
  | ['+'] => .error "invalid digit found in string"
  | '+' :: digits => parseDigits max 0 digits
  | digits => parseDigits max 0 digits

section

variable (outside : Outside)

/-- `set_string`, and `set_path`. -/
def setString (key : String) (target : String) : String := (outside.var key).getD target

/-- `set_optional_string`. -/
def setOptionalString (key : String) (target : Option String) : Option String :=
  match outside.var key with
  | some value => if value.isEmpty then none else some value
  | none => target

/-- `set_number`, for an unsigned integer up to `max`. -/
def setNumber (max : Nat) (key : String) (target : Nat) : Except String Nat :=
  match outside.var key with
  | some value => (parseUnsigned max value).mapError fun error => "invalid " ++ key ++ ": " ++ error
  | none => .ok target

/-- `apply_environment`, for the database. -/
def DatabaseSettings.applyEnvironment (database : DatabaseSettings) :
    Except String DatabaseSettings := do
  let directory := setString outside "TINKIVA_DATABASE_DIR" database.directory
  let maxOpenDatabases ← setNumber outside u64Max "TINKIVA_MAX_OPEN_DATABASES"
    database.maxOpenDatabases
  let idleTimeoutSeconds ← setNumber outside u64Max "TINKIVA_IDLE_TIMEOUT_SECONDS"
    database.idleTimeoutSeconds
  let cleanupIntervalSeconds ← setNumber outside u64Max "TINKIVA_CLEANUP_INTERVAL_SECONDS"
    database.cleanupIntervalSeconds
  let checkpointIntervalSeconds ← setNumber outside u64Max "TINKIVA_CHECKPOINT_INTERVAL_SECONDS"
    database.checkpointIntervalSeconds
  let readerConnections ← setNumber outside u32Max "TINKIVA_READER_CONNECTIONS"
    database.readerConnections
  let busyTimeoutMs ← setNumber outside u64Max "TINKIVA_BUSY_TIMEOUT_MS" database.busyTimeoutMs
  let acquireTimeoutSeconds ← setNumber outside u64Max "TINKIVA_ACQUIRE_TIMEOUT_SECONDS"
    database.acquireTimeoutSeconds
  let maxResultRows ← setNumber outside u64Max "TINKIVA_MAX_RESULT_ROWS" database.maxResultRows
  let cacheSizeKb ← match outside.var "TINKIVA_CACHE_SIZE_KB" with
    | some value =>
      ((parseUnsigned u32Max value).map some).mapError fun error =>
        "invalid TINKIVA_CACHE_SIZE_KB: " ++ error
    | none => .ok database.cacheSizeKb
  let writerCacheSizeKb ← setNumber outside u32Max "TINKIVA_WRITER_CACHE_SIZE_KB"
    database.writerCacheSizeKb
  let readerCacheSizeKb ← setNumber outside u32Max "TINKIVA_READER_CACHE_SIZE_KB"
    database.readerCacheSizeKb
  let statementCacheCapacity ← setNumber outside u64Max "TINKIVA_STATEMENT_CACHE_CAPACITY"
    database.statementCacheCapacity
  let maxConcurrentRequests ← setNumber outside u64Max "TINKIVA_MAX_CONCURRENT_REQUESTS"
    database.maxConcurrentRequests
  let maxConcurrentRequestsPerDatabase ← setNumber outside u64Max
    "TINKIVA_MAX_CONCURRENT_REQUESTS_PER_DATABASE" database.maxConcurrentRequestsPerDatabase
  let admissionTimeoutMs ← setNumber outside u64Max "TINKIVA_ADMISSION_TIMEOUT_MS"
    database.admissionTimeoutMs
  let mmapSizeMb ← setNumber outside u64Max "TINKIVA_MMAP_SIZE_MB" database.mmapSizeMb
  let walSizeLimitMb ← setNumber outside u64Max "TINKIVA_WAL_SIZE_LIMIT_MB"
    database.walSizeLimitMb
  return {
    directory, maxOpenDatabases, idleTimeoutSeconds, cleanupIntervalSeconds,
    checkpointIntervalSeconds, readerConnections, busyTimeoutMs, acquireTimeoutSeconds,
    maxResultRows, maxConcurrentRequests, maxConcurrentRequestsPerDatabase, admissionTimeoutMs,
    cacheSizeKb, writerCacheSizeKb, readerCacheSizeKb, statementCacheCapacity, mmapSizeMb,
    walSizeLimitMb }

/-- `apply_environment`. -/
def Settings.applyEnvironment (settings : Settings) : Except String Settings := do
  let bind := setString outside "TINKIVA_BIND" settings.server.bind
  let authToken := setOptionalString outside "TINKIVA_AUTH_TOKEN" settings.server.authToken
  let database ← settings.database.applyEnvironment outside
  return ⟨{ settings.server with bind, authToken }, database⟩

/-- `if condition { bail!(text) }`. -/
def bailIf (condition : Bool) (text : String) : Except String Unit :=
  if condition then .error text else .ok ()

/-- `validate`. -/
def Settings.validate (settings : Settings) : Except String Unit := do
  let database := settings.database
  bailIf (database.maxOpenDatabases == 0) "max_open_databases must be greater than zero"
  bailIf (database.readerConnections == 0) "reader_connections must be greater than zero"
  bailIf (database.cleanupIntervalSeconds == 0) "cleanup_interval_seconds must be greater than zero"
  bailIf (database.checkpointIntervalSeconds == 0)
    "checkpoint_interval_seconds must be greater than zero"
  bailIf (database.cacheSizeKb == some 0) "cache_size_kb must be greater than zero when set"
  bailIf (database.writerCacheSizeKb == 0) "writer_cache_size_kb must be greater than zero"
  bailIf (database.readerCacheSizeKb == 0) "reader_cache_size_kb must be greater than zero"
  bailIf (database.maxConcurrentRequests == 0) "max_concurrent_requests must be greater than zero"
  bailIf (database.maxConcurrentRequestsPerDatabase == 0)
    "max_concurrent_requests_per_database must be greater than zero"
  bailIf (database.maxResultRows == 0) "max_result_rows must be greater than zero"
  bailIf (settings.server.bodyLimitBytes == 0) "body_limit_bytes must be greater than zero"

/-- The TOML of a file. -/
def readSettings (path : String) : Except String Settings :=
  match outside.readToString path with
  | none => .error ("failed to read config file " ++ path)
  | some contents =>
    match outside.fromStr contents with
    | none => .error ("invalid TOML in " ++ path)
    | some settings => .ok settings

/-- `Settings::load`. -/
def Settings.load (path : Option String) : Except String Settings := do
  let settings ← path.elim (.ok .default) (readSettings outside)
  let settings ← settings.applyEnvironment outside
  settings.validate
  return settings

end

/-- The values of the types of the fields: `usize` and `u64` have 64 bits, `u32` has 32. -/
structure Settings.InRange (settings : Settings) : Prop where
  bodyLimitBytes : settings.server.bodyLimitBytes ≤ u64Max
  requestTimeoutSeconds : settings.server.requestTimeoutSeconds ≤ u64Max
  maxOpenDatabases : settings.database.maxOpenDatabases ≤ u64Max
  idleTimeoutSeconds : settings.database.idleTimeoutSeconds ≤ u64Max
  cleanupIntervalSeconds : settings.database.cleanupIntervalSeconds ≤ u64Max
  checkpointIntervalSeconds : settings.database.checkpointIntervalSeconds ≤ u64Max
  readerConnections : settings.database.readerConnections ≤ u32Max
  busyTimeoutMs : settings.database.busyTimeoutMs ≤ u64Max
  acquireTimeoutSeconds : settings.database.acquireTimeoutSeconds ≤ u64Max
  maxResultRows : settings.database.maxResultRows ≤ u64Max
  maxConcurrentRequests : settings.database.maxConcurrentRequests ≤ u64Max
  maxConcurrentRequestsPerDatabase : settings.database.maxConcurrentRequestsPerDatabase ≤ u64Max
  admissionTimeoutMs : settings.database.admissionTimeoutMs ≤ u64Max
  cacheSizeKb : ∀ kb ∈ settings.database.cacheSizeKb, kb ≤ u32Max
  writerCacheSizeKb : settings.database.writerCacheSizeKb ≤ u32Max
  readerCacheSizeKb : settings.database.readerCacheSizeKb ≤ u32Max
  statementCacheCapacity : settings.database.statementCacheCapacity ≤ u64Max
  mmapSizeMb : settings.database.mmapSizeMb ≤ u64Max
  walSizeLimitMb : settings.database.walSizeLimitMb ≤ u64Max

theorem bind_eq_ok {α β : Type} {x : Except String α} {f : α → Except String β} {b : β}
    (h : x >>= f = .ok b) : ∃ a, x = .ok a ∧ f a = .ok b := by
  cases x with
  | ok a => exact ⟨a, rfl, h⟩
  | error error => simp [bind, Except.bind] at h

/-- The environment sets the token, if it has one: an empty one is none.  Else it is the
token of the file or the default. -/
theorem load_authToken {outside : Outside} {path : Option String} {settings : Settings}
    (hload : Settings.load outside path = .ok settings) :
    ∃ loaded, path.elim (.ok .default) (readSettings outside) = .ok loaded ∧
      settings.server.authToken =
        setOptionalString outside "TINKIVA_AUTH_TOKEN" loaded.server.authToken := by
  obtain ⟨loaded, hloaded, hload⟩ := bind_eq_ok hload
  obtain ⟨applied, happlied, hload⟩ := bind_eq_ok hload
  obtain ⟨_, _, hload⟩ := bind_eq_ok hload
  obtain ⟨database, _, happlied⟩ := bind_eq_ok happlied
  obtain rfl := Except.ok.inj hload
  obtain rfl := Except.ok.inj happlied
  exact ⟨loaded, hloaded, rfl⟩

/-- A token that the environment sets is not empty. -/
theorem load_authToken_var {outside : Outside} {path : Option String} {settings : Settings}
    {token value : String} (hload : Settings.load outside path = .ok settings)
    (htoken : settings.server.authToken = some token)
    (hvar : outside.var "TINKIVA_AUTH_TOKEN" = some value) : token = value ∧ token ≠ "" := by
  obtain ⟨loaded, _, hset⟩ := load_authToken hload
  simp only [htoken, setOptionalString, hvar] at hset
  split at hset
  · simp at hset
  · rename_i hvalue
    obtain rfl := Option.some.inj hset
    exact ⟨rfl, fun hempty => hvalue (by rw [hempty]; rfl)⟩

end Tinkiva.Config
