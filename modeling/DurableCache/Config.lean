import DurableCache.Text.Blank
import DurableCache.Text.Integer
import DurableCache.Word

/-!
# Configuration

What an engine and its server are started with. A variable of the environment that is
absent or unreadable leaves the default in place.
-/

namespace DurableCache

/-- The settings of an engine and its server. -/
structure Config where
  /-- The estimated bytes that the entries in memory may take. -/
  maxMemoryBytes : Nat
  /-- Milliseconds after which entries without their own time to live are stale. -/
  defaultTtl : Option UInt64
  /-- The number of jobs that may run at one time. -/
  workers : Nat
  /-- Days after which a persisted entry is deleted. -/
  retentionDays : Nat
  /-- The directory of the blob file. -/
  dataDir : String
  /-- The name of the blob file. -/
  namespaceName : String
  /-- The port of the server. -/
  port : Nat
  /-- Seconds between two purges of stale entries. -/
  purgeInterval : Nat
  deriving DecidableEq, Repr

namespace Config

/-- The settings of an engine that is told nothing. -/
def standard : Config where
  maxMemoryBytes := 20 * 1024 * 1024
  defaultTtl := none
  workers := 10
  retentionDays := 2
  dataDir := "./coldstorage-data"
  namespaceName := "coldstorage"
  port := 3000
  purgeInterval := 60

instance : Inhabited Config := ⟨standard⟩

/-- At least one job can run. -/
def withWorkers (c : Config) (n : Nat) : Config := { c with workers := max n 1 }

/-- The value of a variable, if it is set and readable. -/
abbrev Environment := String → Option String

/-- Whether an environment can hold a variable: its name is not empty and has no equals sign, and
neither the name nor the value has a zero. -/
def isVariable (name : String) (value : List UInt8) : Bool :=
  name != "" && !name.toList.contains '=' && !name.toList.contains '\x00' && !value.contains 0

/-- The number below `limit` that a variable holds between blanks. -/
def numberOf? (env : Environment) (name : String) (limit : Nat) : Option Nat :=
  (env name).bind fun text => (Text.readUnsigned limit (Text.trim text.toList)).toOption

/-- The settings that the environment asks for. -/
def ofEnvironment (env : Environment) : Config :=
  { maxMemoryBytes :=
      (numberOf? env "COLDSTORAGE_MAX_MEMORY_BYTES" wordLimit).getD standard.maxMemoryBytes
    defaultTtl := (numberOf? env "COLDSTORAGE_DEFAULT_TTL_MS" wordLimit).map UInt64.ofNat
    workers :=
      max ((numberOf? env "COLDSTORAGE_WORKER_THREADS" wordLimit).getD standard.workers) 1
    retentionDays :=
      (numberOf? env "COLDSTORAGE_DISK_RETENTION_DAYS" UInt32.size).getD standard.retentionDays
    dataDir := (env "COLDSTORAGE_DATA_DIR").getD standard.dataDir
    namespaceName :=
      ((env "COLDSTORAGE_NAMESPACE").filter fun name => !name.isEmpty).getD standard.namespaceName
    port := (numberOf? env "SERVER_PORT" UInt16.size).getD standard.port
    purgeInterval := (numberOf? env "PURGE_INTERVAL" wordLimit).getD standard.purgeInterval }

/-- Some job can always run. -/
theorem workers_pos_ofEnvironment (env : Environment) : 0 < (ofEnvironment env).workers := by
  simp only [ofEnvironment]
  omega

end Config

end DurableCache
