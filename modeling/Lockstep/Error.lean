/-!
# Errors

The faults that stop a replica, as against the ordinary answers of a command. Those after which
replicas may no longer agree are fatal.
-/

namespace Lockstep

/-- A fault in what a replica was given to apply or to restore. -/
inductive Error where
  /-- An entry of the log could not be understood. -/
  | protocolViolation (reason : String)
  /-- An entry came at an index that is not above the last one applied. -/
  | applyOrder (index lastApplied : UInt64)
  /-- A snapshot could not be read or adopted. -/
  | snapshot (reason : String)
  deriving DecidableEq, Inhabited

namespace Error

def message : Error → String
  | protocolViolation reason => "protocol violation: " ++ reason
  | applyOrder index lastApplied =>
    "apply order violation: index " ++ toString index.toNat ++ " <= last applied "
      ++ toString lastApplied.toNat
  | snapshot reason => "snapshot error: " ++ reason

/-- Replicas may have parted ways. -/
def isFatal : Error → Bool
  | protocolViolation _ | applyOrder _ _ => true
  | snapshot _ => false

end Error

end Lockstep
