import Lockstep.Command
import Lockstep.Outcome
import Lockstep.State.Prepare

/-!
# Executing commands

Each command answers from the state and leaves a state behind. Queries see committed entries only.
A key write to a locked key and a clear of a table with a locked key answer `locked` and change
nothing.
-/

namespace Lockstep

/-- Makes a key write, whatever is locked. -/
def Tables.write (s : Tables) (t k : String) : KeyWrite → Output × Tables
  | .put v => (s.put t k v).map .value id
  | .putIfAbsent v => (s.putIfAbsent t k v).map .value id
  | .remove => (s.remove t k).map .value id
  | .removeIfValue v => (s.removeIfValue t k v).map .flag id
  | .removeIfVersion n => (s.removeIfVersion t k n).map .flag id
  | .replaceValue old new => (s.replaceValue t k old new).map .flag id
  | .replaceVersion old new => (s.replaceVersion t k old new).map .flag id

namespace State

def answer (s : State) : Query → Output
  | .tableNames => .tableNames s.tables.names
  | .counters => .counters s.counters.values
  | .size t => .count (.ofNat (s.tables.size t))
  | .isEmpty t => .flag (s.tables.isEmpty t)
  | .containsKey t k => .flag (s.tables.containsKey t k)
  | .containsValue t v => .flag (s.tables.containsValue t v)
  | .get t k => .value (s.tables.get? t k)
  | .keySet t => .keys (s.tables.keySet t)
  | .values t => .values (s.tables.values t)
  | .entries t => .entries (s.tables.entries t)

/-- Makes a key write unless the key is locked. -/
def write (s : State) (t k : String) (w : KeyWrite) : Outcome Output × State :=
  if s.locks.isLocked t k then (.locked, s)
  else
    let (out, tables) := s.tables.write t k w
    (.ok out, { s with tables := tables })

/-- Empties a table unless some key of it is locked. -/
def clear (s : State) (t : String) : Outcome Output × State :=
  if s.locks.hasLocks t then (.locked, s)
  else (.ok .unit, { s with tables := s.tables.clear t })

/-- The command's answer and the state it leaves. -/
def execute (s : State) : Command → Outcome Output × State
  | .query q => (.ok (s.answer q), s)
  | .write t k w => s.write t k w
  | .clear t => s.clear t
  | .nextValue name =>
    let (n, counters) := s.counters.next name
    (.ok (.counter n), { s with counters := counters })
  | .currentValue name =>
    let (n, counters) := s.counters.current name
    (.ok (.counter n), { s with counters := counters })
  | .prepare txn =>
    let (outcome, s) := s.tryPrepare txn
    (.ok (.flag outcome.isPrepared), s)
  | .commit txn => (.ok (.flag true), s.commit txn)
  | .rollback txn => (.ok (.flag true), s.rollback txn)
  | .prepareAndCommit txn =>
    let (outcome, s) := s.tryPrepare txn
    if outcome.isPrepared then (.ok (.flag true), s.commit txn) else (.ok (.flag false), s)

end State

end Lockstep
