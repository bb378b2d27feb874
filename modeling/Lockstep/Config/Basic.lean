import Lockstep.Text.Blank

/-!
# Configuration

The settings of a replica and what makes them usable. Replicas that share a log must agree on the
limit on transactions, for it decides which commands are refused.
-/

namespace Lockstep

structure Config where
  /-- The name of the partition in logs. -/
  partitionId : String := "default"
  /-- The greatest number of updates in a transaction that is to be prepared; 0 is no limit. -/
  maxTransactionUpdates : UInt64 := 0
  /-- How many entries are applied from one snapshot to the next. -/
  intervalEntries : UInt64 := 10000
  logLevel : String := "info"
  deriving DecidableEq, Inhabited

namespace Config

/-- Why there is no usable configuration. -/
inductive Fault where
  /-- The file is missing or holds no text. -/
  | unreadable (path : String)
  /-- The text is not TOML, or a setting has the wrong type. -/
  | malformed
  | blankPartition
  | zeroInterval
  | unknownLogLevel (level : String)
  deriving DecidableEq, Inhabited

def logLevels : List String := ["trace", "debug", "info", "warn", "error"]

def Fault.message : Fault → String
  | unreadable path => "failed to read config file: " ++ path
  | malformed => "failed to parse config"
  | blankPartition => "engine.partition_id must not be empty"
  | zeroInterval => "snapshot.interval_entries must be > 0"
  | unknownLogLevel level =>
    "telemetry.log_level must be one of ["
      ++ ", ".intercalate (logLevels.map fun l => "\"" ++ l ++ "\"") ++ "], got: " ++ level

/-- The limit on transactions, if there is one. -/
def transactionLimit (c : Config) : Option UInt64 :=
  if c.maxTransactionUpdates = 0 then none else some c.maxTransactionUpdates

/-- Checks the partition, then the interval, then the log level. -/
def validate (c : Config) : Except Fault Unit :=
  if Text.allBlank c.partitionId then .error .blankPartition
  else if c.intervalEntries = 0 then .error .zeroInterval
  else if c.logLevel ∈ logLevels then .ok ()
  else .error (.unknownLogLevel c.logLevel)

end Config

end Lockstep
