import Lockstep.Versioned

/-!
# Transactions

A transaction lists conditional writes, each to one key of one table. Whether an update may go
ahead is a matter of the key's committed entry alone (`UpdateKind.holds`); what it will write is
settled before that (`UpdateKind.pending`) and waits in the key's lock until the transaction is
committed or rolled back.
-/

namespace Lockstep

/-- The write a locked key waits for. -/
inductive PendingWrite where
  | put (value : Value)
  | tombstone
  deriving DecidableEq, Inhabited

/-- What an update does to its key, and on what condition. -/
inductive UpdateKind where
  | put (value : Value)
  | putIfAbsent (value : Value)
  | putIfVersion (value : Value) (version : UInt64)
  | putIfValue (value current : Value)
  | remove
  | removeIfVersion (version : UInt64)
  | removeIfValue (current : Value)
  deriving DecidableEq, Inhabited

namespace UpdateKind

def name : UpdateKind → String
  | put _ => "PUT"
  | putIfAbsent _ => "PUT_IF_ABSENT"
  | putIfVersion _ _ => "PUT_IF_VERSION_MATCH"
  | putIfValue _ _ => "PUT_IF_VALUE_MATCH"
  | remove => "REMOVE"
  | removeIfVersion _ => "REMOVE_IF_VERSION_MATCH"
  | removeIfValue _ => "REMOVE_IF_VALUE_MATCH"

/-- The write this kind makes once its condition has been found to hold. -/
def pending : UpdateKind → PendingWrite
  | put v | putIfAbsent v | putIfVersion v _ | putIfValue v _ => .put v
  | remove | removeIfVersion _ | removeIfValue _ => .tombstone

def isRemove (kind : UpdateKind) : Bool := kind.pending = .tombstone

/-- The condition on the key's committed entry. A conditional removal of an absent key holds, for
the key is already gone. -/
def holds : UpdateKind → Option Versioned → Bool
  | put _, _ | remove, _ => true
  | putIfAbsent _, entry => entry.isNone
  | putIfVersion _ version, entry => entry.any (·.version = version)
  | putIfValue _ current, entry => entry.any (·.value = current)
  | removeIfVersion version, entry => entry.all (·.version = version)
  | removeIfValue current, entry => entry.all (·.value = current)

end UpdateKind

/-- A conditional write to one key of one table. -/
structure Update where
  table : String
  key : String
  kind : UpdateKind
  deriving DecidableEq, Inhabited

/-- Updates that take effect together. The id names the owner of the locks. -/
structure Transaction where
  id : UInt64
  updates : List Update
  deriving DecidableEq, Inhabited

def Transaction.size (txn : Transaction) : Nat := txn.updates.length

/-- How an attempt to prepare a transaction ended. -/
inductive PrepareOutcome where
  /-- The transaction holds all its keys. -/
  | prepared
  /-- Some key is held by another transaction. -/
  | conflict
  /-- Some update's condition does not hold. -/
  | preconditionFailed
  deriving DecidableEq, Inhabited

def PrepareOutcome.isPrepared (p : PrepareOutcome) : Bool := p = .prepared

end Lockstep
