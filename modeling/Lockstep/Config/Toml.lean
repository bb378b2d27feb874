import Lockstep.Config.Basic
import Lockstep.Text.Utf8
import Lockstep.Toml.Document

/-!
# Configuration text

Settings are read from a TOML document by section and name. A section may be a table or an array of
its settings in their order; what is missing keeps its default, and names that are no setting are
passed over.
-/

namespace Lockstep.Config

open Toml (Value Entries)

/-- Finds the settings of a section by place and name. -/
abbrev Section := Nat → String → Option Value

/-- The settings of a section. A point in time has none, but may stand where a section may. -/
def section? (doc : Entries) (name : String) : Option Section :=
  match doc.get? name with
  | none | some (.time _) => some fun _ _ => none
  | some (.table _ es) => some fun _ k => Entries.get? es k
  | some (.array items) => some fun i _ => items[i]?
  | some (.tables items) => some fun i _ => items[i]?.map (.table .header)
  | some _ => none

/-- A setting that is a text. -/
def text? (default : String) : Option Value → Option String
  | none => some default
  | some (.string s) => some s
  | some _ => none

/-- A setting that is a number from 0. -/
def number? (default : UInt64) : Option Value → Option UInt64
  | none => some default
  | some (.integer n) => if 0 ≤ n then some (.ofNat n.toNat) else none
  | some _ => none

/-- The settings a document gives. -/
def ofEntries? (doc : Entries) : Option Config := do
  let defaults : Config := {}
  let engine ← section? doc "engine"
  let partitionId ← text? defaults.partitionId (engine 0 "partition_id")
  let maxTransactionUpdates ←
    number? defaults.maxTransactionUpdates (engine 1 "max_transaction_updates")
  let snapshot ← section? doc "snapshot"
  let intervalEntries ← number? defaults.intervalEntries (snapshot 0 "interval_entries")
  let telemetry ← section? doc "telemetry"
  let logLevel ← text? defaults.logLevel (telemetry 0 "log_level")
  return ⟨partitionId, maxTransactionUpdates, intervalEntries, logLevel⟩

/-- The configuration a text holds, if it is usable. -/
def ofToml (s : String) : Except Fault Config :=
  match Toml.parse? s >>= ofEntries? with
  | some c => c.validate.map fun _ => c
  | none => .error .malformed

/-- The configuration in a file at this path, from the file's bytes if it is there. -/
def ofFile (path : String) (content : Option (List UInt8)) : Except Fault Config :=
  match content.map Text.ofUtf8 with
  | some (.ok s) => ofToml s
  | _ => .error (.unreadable path)

end Lockstep.Config
