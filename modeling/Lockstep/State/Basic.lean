import Lockstep.Counters
import Lockstep.Error
import Lockstep.Locks
import Lockstep.Tables

/-!
# The replicated state

Counters, tables and locks together, and what can be told of them at a glance. The durable form of
a state is a context of four regions, each of which may be missing; a state is taken up from a
context (`ofContext`) and laid down in one (`toContext`).
-/

namespace Lockstep

/-- What a replica's log adds up to. -/
structure State where
  counters : Counters
  tables : Tables
  locks : Locks
  deriving DecidableEq, Inhabited

/-- The regions that persist. One that was never persisted is `none`. -/
structure Context where
  counters : Option (OrdMap String Int64) := none
  tables : Option (OrdMap String Table) := none
  locks : Option (OrdMap String (OrdMap String Lock)) := none
  nextVersion : Option UInt64 := none
  deriving DecidableEq, Inhabited

def Context.present (c : Context) : List String :=
  (if c.counters.isSome then ["counters"] else [])
    ++ (if c.tables.isSome then ["tables"] else [])
    ++ (if c.locks.isSome then ["locks"] else [])
    ++ if c.nextVersion.isSome then ["nextVersion"] else []

/-- The sizes of a state. -/
structure Stats where
  tables : Nat
  keys : Nat
  lockedKeys : Nat
  counters : Nat
  nextVersion : UInt64
  deriving DecidableEq

/-- Tables that cannot be taken over make the whole snapshot unusable. -/
def Tables.Fault.toError (f : Tables.Fault) : Error := .snapshot f.message

namespace State

instance : EmptyCollection State := ⟨⟨∅, ∅, ∅⟩⟩

/-- Takes up the regions of a context; a missing one starts empty. -/
def ofContext (c : Context) : Except Error State := do
  let taken := Tables.ofParts (c.tables.getD ∅) (c.nextVersion.getD 0)
  return ⟨⟨c.counters.getD ∅⟩, ← taken.mapError Tables.Fault.toError, .ofMap (c.locks.getD ∅)⟩

def toContext (s : State) : Context where
  counters := s.counters.values
  tables := s.tables.tables
  locks := s.locks.tables
  nextVersion := s.tables.nextVersion

def stats (s : State) : Stats where
  tables := s.tables.tables.size
  keys := s.tables.keyCount
  lockedKeys := s.locks.count
  counters := s.counters.size
  nextVersion := s.tables.nextVersion

end State

end Lockstep
