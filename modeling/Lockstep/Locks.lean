import Lockstep.OrdMap.Basic
import Lockstep.Transaction

/-!
# Provisional locks

A prepared transaction holds each of its keys by a lock that keeps the transaction's id and the
write it will make. A table is listed only while some key of it is locked, and the number of
locked keys is kept along.
-/

namespace Lockstep

/-- A key held for a transaction, with the write that waits. -/
structure Lock where
  owner : UInt64
  pending : PendingWrite
  deriving DecidableEq, Inhabited

/-- The locks of each table by key, and how many there are. -/
structure Locks where
  tables : OrdMap String (OrdMap String Lock)
  count : Nat
  deriving DecidableEq, Inhabited

namespace Locks

instance : EmptyCollection Locks := ⟨⟨∅, 0⟩⟩

/-- Takes over a map of locks. Tables with no lock are dropped. -/
def ofMap (tables : OrdMap String (OrdMap String Lock)) : Locks :=
  let held := tables.filter fun _ keys => !keys.isEmpty
  ⟨held, held.total⟩

def table (l : Locks) (t : String) : OrdMap String Lock := (l.tables.get? t).getD ∅

def get? (l : Locks) (t k : String) : Option Lock := (l.table t).get? k

def isLocked (l : Locks) (t k : String) : Bool := (l.get? t k).isSome

def isLockedByAnother (l : Locks) (t k : String) (id : UInt64) : Bool :=
  (l.get? t k).any (·.owner ≠ id)

/-- Some key of the table is locked. -/
def hasLocks (l : Locks) (t : String) : Bool := l.tables.contains t

/-- Holds a key for a transaction, whoever held it before. -/
def lock (l : Locks) (t k : String) (id : UInt64) (pending : PendingWrite) : Locks where
  tables := l.tables.insert t ((l.table t).insert k ⟨id, pending⟩)
  count := if l.isLocked t k then l.count else l.count + 1

/-- The locks without the one on a key, and without its table if that was the last. -/
def unlock (l : Locks) (t k : String) : Locks :=
  let keys := (l.table t).erase k
  ⟨if keys.isEmpty then l.tables.erase t else l.tables.insert t keys, l.count - 1⟩

/-- Frees a key if the transaction holds it, and returns the write that waited there. -/
def release? (l : Locks) (t k : String) (id : UInt64) : Option (PendingWrite × Locks) :=
  match l.get? t k with
  | some ⟨owner, pending⟩ => if owner = id then some (pending, l.unlock t k) else none
  | none => none

def lockedKeys (l : Locks) (t : String) : OrdSet String := (l.table t).keySet

/-- The transactions that hold some key. -/
def owners (l : Locks) : OrdSet UInt64 :=
  OrdSet.ofList (l.tables.values.flatMap fun keys => keys.values.map (·.owner))

def isEmpty (l : Locks) : Bool := l.tables.isEmpty

end Locks

end Lockstep
