import Lockstep.Wire.Records

/-!
# Snapshots

The four regions of a state at a position of the log, as one record that is written and read whole.
A region missing from a context is empty in the snapshot.
-/

namespace Lockstep

/-- All regions after the entry at `lastApplied`. -/
structure Snapshot where
  lastApplied : UInt64
  counters : OrdMap String Int64
  tables : OrdMap String Table
  locks : OrdMap String (OrdMap String Lock)
  nextVersion : UInt64
  deriving DecidableEq, Inhabited

namespace Snapshot

open Wire in
instance : Wire Snapshot where
  encode s :=
    encode s.lastApplied ++ encode s.counters ++ encode s.tables ++ encode s.locks
      ++ encode s.nextVersion
  parse := do return ⟨← parse, ← parse, ← parse, ← parse, ← parse⟩

/-- The snapshot at the front of the bytes. -/
def decode (bs : Bytes) : Except Error Snapshot :=
  (Wire.decode bs).mapError fun f => .snapshot ("failed to deserialize snapshot: " ++ f.message)

def ofContext (lastApplied : UInt64) (c : Context) : Snapshot where
  lastApplied := lastApplied
  counters := c.counters.getD ∅
  tables := c.tables.getD ∅
  locks := c.locks.getD ∅
  nextVersion := c.nextVersion.getD 0

def toContext (s : Snapshot) : Context := ⟨s.counters, s.tables, s.locks, s.nextVersion⟩

def recordCount (s : Snapshot) : Nat := s.tables.total

def lockCount (s : Snapshot) : Nat := s.locks.total

end Snapshot

namespace State

def snapshot (s : State) (lastApplied : UInt64) : Snapshot := .ofContext lastApplied s.toContext

def restore (s : Snapshot) : Except Error State := ofContext s.toContext

end State

end Lockstep
