import Lockstep.Proofs.Versions

/-!
# Going on from a stored state

A context is taken up if its last version leaves room for another and no entry is above it, and it
comes out of the state again as it went in, with what was missing empty and the tables without locks
gone. It makes no difference whether it goes through a snapshot (`restore_ofContext`).

The state of a run comes back from its own snapshot whole, with the count of its locks, or not at
all (`restore_snapshot_eq_ok`). That it comes back is a matter of the versions. As long as each put
of the run found a version above the last one, only the greatest version stands against it
(`contexts_resumed_exactly`). A put that finds the versions used up starts them again, and then an
entry above the last version does (`not_resumed_once_versions_wrap`).
-/

namespace Lockstep.State

variable {s : State} {c : Context}

/-- A state that some run passes through in which every put found a version above the last one to
take, and none started the versions again. -/
inductive Attainable : State → Prop
  | start {s : State} (h : Start s) : Attainable s
  | execute {s : State} (h : Attainable s) (c : Command)
    (hroom : s.tables.nextVersion.toNat + (s.puts c).length < UInt64.size) :
    Attainable (s.execute c).2

theorem Attainable.bounded (h : Attainable s) : s.tables.Bounded := by
  induction h with
  | start h => exact h.bounded
  | execute _ c hroom ih => exact (stamped_execute _ c).bounded ih hroom

end Lockstep.State
