import Lockstep.Config.Basic
import Lockstep.Metrics.Event
import Lockstep.Snapshot
import Lockstep.State.Execute
import Lockstep.Wire.Command

/-!
# Replicas

A replica applies the entries of a log in the order of their indices. What it answers depends on
its state, its last index and the limit on transactions, and on nothing else it keeps; so replicas
that agree on these go on in step. A step that fails leaves the replica as it was, but for the
count of the entries it could not understand.
-/

namespace Lockstep

/-- A state on its way through a log. -/
structure Replica where
  config : Config
  state : State
  metrics : Metrics
  /-- The index of the last entry applied. -/
  lastApplied : UInt64
  /-- How many entries were applied since the last snapshot. -/
  sinceSnapshot : UInt64
  deriving DecidableEq, Inhabited

namespace Replica

/-- A replica that goes on from a state. -/
def ofState (config : Config) (state : State) (lastApplied : UInt64) : Replica :=
  ⟨config, state, ∅, lastApplied, 0⟩

/-- A replica at the beginning of the log. -/
def new (config : Config) : Replica := ofState config ∅ 0

def ofSnapshot (config : Config) (snapshot : Snapshot) : Except Error Replica := do
  return ofState config (← State.restore snapshot) snapshot.lastApplied

def record (r : Replica) (e : Event) : Replica := { r with metrics := r.metrics.record e }

/-- The command would prepare a transaction above the limit. A commit or a rollback is never above
it, so locks taken under another limit can be resolved. -/
def isOversized (r : Replica) (c : Command) : Bool :=
  match r.config.transactionLimit, c.prepares? with
  | some limit, some txn => limit.toNat < txn.size
  | _, _ => false

/-- Moves on to the index. -/
def advance (r : Replica) (index : UInt64) : Replica :=
  { r with lastApplied := index, sinceSnapshot := r.sinceSnapshot + 1 }.record (.applied index)

/-- What a transaction command shows in the metrics. -/
def transactionEvents (s : State) : Command → List Event
  | .prepare txn => [.prepare (s.verdict txn)]
  | .commit _ => [.commit]
  | .rollback _ => [.rollback]
  | .prepareAndCommit txn =>
    let verdict := s.verdict txn
    .prepare verdict :: if verdict.isPrepared then [.commit] else []
  | _ => []

/-- What a command shows in the metrics: how its transaction fared, the state it left, and whether
a lock stood in its way. -/
def events (s : State) (c : Command) : List Event :=
  let (outcome, after) := s.execute c
  transactionEvents s c
    ++ .state after.tables.nextVersion (.ofNat after.locks.count)
      :: if outcome.isLocked then [.locked] else []

/-- Executes a command and tells of it. -/
def execute (r : Replica) (c : Command) : Outcome Output × Replica :=
  let (outcome, state) := r.state.execute c
  (outcome, { r with state := state, metrics := (events r.state c).foldl Metrics.record r.metrics })

/-- Applies the entry at an index. A transaction above the limit is refused like one whose
conditions fail, and takes up its index. -/
def apply (r : Replica) (index : UInt64) (c : Command) : Except Error Applied × Replica :=
  if index ≤ r.lastApplied then (.error (.applyOrder index r.lastApplied), r)
  else if r.isOversized c then
    (.ok ⟨index, .ok (.flag false)⟩, (r.record .oversized).advance index)
  else
    let (outcome, r) := r.execute c
    (.ok ⟨index, outcome⟩, r.advance index)

/-- Applies an entry in its written form. -/
def applyEncoded (r : Replica) (index : UInt64) (payload : Bytes) :
    Except Error Applied × Replica :=
  match Command.decode payload with
  | .ok c => r.apply index c
  | .error e => (.error e, r.record .protocolViolation)

/-- As many entries were applied since the last snapshot as the interval asks for. -/
def shouldSnapshot (r : Replica) : Bool := r.config.intervalEntries ≤ r.sinceSnapshot

/-- Takes a snapshot at the last index. -/
def snapshot (r : Replica) : Snapshot × Replica :=
  (r.state.snapshot r.lastApplied, { r with sinceSnapshot := 0 })

/-- Reads a snapshot in its written form, takes its state up and then puts it in the place of the
state, with its index for the last one. -/
def install (r : Replica) (bs : Bytes) : Except Error Unit × Replica :=
  match Snapshot.decode bs with
  | .error e => (.error e, r)
  | .ok snapshot =>
    match State.restore snapshot with
    | .error e => (.error e, r)
    | .ok state =>
      (.ok (), { r with
        state := state, lastApplied := snapshot.lastApplied, sinceSnapshot := 0 })

end Replica

end Lockstep
