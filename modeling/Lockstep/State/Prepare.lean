import Lockstep.State.Basic

/-!
# Transactions on a state

To prepare a transaction is to lock all its keys, or none: `verdict` decides, from the state before
the attempt alone, and only `prepared` leads to locks. A commit makes the write that waits in each
lock the transaction holds, and a rollback drops those locks; keys that are free or held by another
are passed over, so both can be repeated at will.
-/

namespace Lockstep.State

/-- How an attempt to prepare the transaction would end. A key held by another transaction counts
before any condition that fails. -/
def verdict (s : State) (txn : Transaction) : PrepareOutcome :=
  if txn.updates.any fun u => s.locks.isLockedByAnother u.table u.key txn.id then .conflict
  else if txn.updates.all fun u => u.kind.holds (s.tables.get? u.table u.key) then .prepared
  else .preconditionFailed

/-- Locks every key of the transaction. Of several updates to a key the last one waits. -/
def lockAll (s : State) (txn : Transaction) : State :=
  { s with
    locks := txn.updates.foldl (fun l u => l.lock u.table u.key txn.id u.kind.pending) s.locks }

def tryPrepare (s : State) (txn : Transaction) : PrepareOutcome × State :=
  match s.verdict txn with
  | .prepared => (.prepared, s.lockAll txn)
  | refusal => (refusal, s)

/-- Frees the update's key and makes the write that waited there, if `id` holds the key. -/
def commitKey (id : UInt64) (s : State) (u : Update) : State :=
  match s.locks.release? u.table u.key id with
  | some (pending, locks) =>
    { s with tables := s.tables.settle u.table u.key pending, locks := locks }
  | none => s

/-- Frees the update's key if `id` holds it. -/
def rollbackKey (id : UInt64) (s : State) (u : Update) : State :=
  match s.locks.release? u.table u.key id with
  | some (_, locks) => { s with locks := locks }
  | none => s

def commit (s : State) (txn : Transaction) : State := txn.updates.foldl (commitKey txn.id) s

def rollback (s : State) (txn : Transaction) : State := txn.updates.foldl (rollbackKey txn.id) s

/-- Prepares a transaction and commits it at once if that succeeds. -/
def prepareAndCommit (s : State) (txn : Transaction) : Bool × State :=
  match s.tryPrepare txn with
  | (.prepared, s) => (true, s.commit txn)
  | (_, s) => (false, s)

end Lockstep.State
