import Lockstep.Metrics.Basic
import Lockstep.Transaction

/-!
# Events

What happens to a replica that its metrics tell of, and the names they tell it under.
-/

namespace Lockstep

/-- Something that shows in the metrics. -/
inductive Event where
  /-- The entry at this index was applied. -/
  | applied (index : UInt64)
  /-- A transaction was to be prepared, and it ended so. -/
  | prepare (outcome : PrepareOutcome)
  /-- A transaction was above the limit. -/
  | oversized
  | commit
  | rollback
  /-- A lock stood in the way of a write. -/
  | locked
  /-- An entry could not be understood. -/
  | protocolViolation
  /-- The state now has this last version and so many locked keys. -/
  | state (nextVersion lockedKeys : UInt64)
  deriving DecidableEq, Inhabited

namespace Metrics

def entriesTotal : String := "coordstore.apply.entries_total"

def lastIndex : String := "coordstore.apply.last_index"

def prepareTotal : String := "coordstore.txn.prepare_total"

def preparedTotal : String := "coordstore.txn.prepared_total"

def conflictTotal : String := "coordstore.txn.conflict_total"

def preconditionFailedTotal : String := "coordstore.txn.precondition_failed_total"

def oversizedTotal : String := "coordstore.txn.oversized_total"

def commitTotal : String := "coordstore.txn.commit_total"

def rollbackTotal : String := "coordstore.txn.rollback_total"

def lockedTotal : String := "coordstore.kv.locked_total"

def nextVersion : String := "coordstore.kv.next_version"

def lockedKeys : String := "coordstore.kv.locked_keys"

def protocolViolationTotal : String := "coordstore.protocol_violation_total"

/-- The counter of the attempts to prepare that end so. -/
def outcomeTotal : PrepareOutcome → String
  | .prepared => preparedTotal
  | .conflict => conflictTotal
  | .preconditionFailed => preconditionFailedTotal

def record (m : Metrics) : Event → Metrics
  | .applied index => (m.inc entriesTotal).set lastIndex index
  | .prepare outcome => (m.inc prepareTotal).inc (outcomeTotal outcome)
  | .oversized => m.inc oversizedTotal
  | .commit => m.inc commitTotal
  | .rollback => m.inc rollbackTotal
  | .locked => m.inc lockedTotal
  | .protocolViolation => m.inc protocolViolationTotal
  | .state version locks => (m.set nextVersion version).set lockedKeys locks

end Metrics

end Lockstep
