import Mathlib.Algebra.Group.Nat.Defs
import Mathlib.Tactic.Common

/-!
# Database settings

`DatabaseSettings` of `src/src/config.rs`, with its defaults and the derived
accessors that the manager and the handlers read.  An unsigned field is a
natural number.
-/

namespace Tinkiva.Config

/-- `DatabaseSettings`. -/
structure DatabaseSettings where
  directory : String
  maxOpenDatabases : Nat
  idleTimeoutSeconds : Nat
  cleanupIntervalSeconds : Nat
  checkpointIntervalSeconds : Nat
  readerConnections : Nat
  busyTimeoutMs : Nat
  acquireTimeoutSeconds : Nat
  maxResultRows : Nat
  maxConcurrentRequests : Nat
  maxConcurrentRequestsPerDatabase : Nat
  admissionTimeoutMs : Nat
  cacheSizeKb : Option Nat
  writerCacheSizeKb : Nat
  readerCacheSizeKb : Nat
  statementCacheCapacity : Nat
  mmapSizeMb : Nat
  walSizeLimitMb : Nat
  deriving DecidableEq, Repr

/-- `impl Default for DatabaseSettings`. -/
def DatabaseSettings.default : DatabaseSettings where
  directory := "./data/databases"
  maxOpenDatabases := 50
  idleTimeoutSeconds := 300
  cleanupIntervalSeconds := 30
  checkpointIntervalSeconds := 10
  readerConnections := 1
  busyTimeoutMs := 5000
  acquireTimeoutSeconds := 10
  maxResultRows := 10000
  maxConcurrentRequests := 512
  maxConcurrentRequestsPerDatabase := 8
  admissionTimeoutMs := 50
  cacheSizeKb := none
  writerCacheSizeKb := 1024
  readerCacheSizeKb := 512
  statementCacheCapacity := 16
  mmapSizeMb := 64
  walSizeLimitMb := 16

/-- `self.settings.idle_timeout().as_millis() as u64`: the idle timeout in
milliseconds, computed in 128 bits and cut to 64. -/
def DatabaseSettings.idleTimeoutMs (settings : DatabaseSettings) : Nat :=
  settings.idleTimeoutSeconds * 1000 % 2 ^ 64

/-- The method `writer_cache_size_kb`, which the legacy override goes before. -/
def DatabaseSettings.writerCacheKb (settings : DatabaseSettings) : Nat :=
  settings.cacheSizeKb.getD settings.writerCacheSizeKb

/-- The method `reader_cache_size_kb`. -/
def DatabaseSettings.readerCacheKb (settings : DatabaseSettings) : Nat :=
  settings.cacheSizeKb.getD settings.readerCacheSizeKb

end Tinkiva.Config
