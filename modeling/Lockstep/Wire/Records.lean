import Lockstep.Command
import Lockstep.Outcome
import Lockstep.State.Basic
import Lockstep.Wire.Basic

/-!
# Written forms of records

A record is its fields in order. The number of an alternative is its place in the list its reader
chooses from.
-/

namespace Lockstep

open Wire

instance : Wire Value where
  encode v := encodeBlock v.bytes
  parse := do return ⟨← block⟩

instance : Wire Versioned where
  encode e := encode e.value ++ encode e.version
  parse := do return ⟨← parse, ← parse⟩

instance : Wire PendingWrite where
  encode
    | .put v => tag 0 ++ encode v
    | .tombstone => tag 1
  parse := oneOf [
    do return .put (← parse),
    return .tombstone]

instance : Wire Lock where
  encode l := encode l.owner ++ encode l.pending
  parse := do return ⟨← parse, ← parse⟩

instance : Wire UpdateKind where
  encode
    | .put v => tag 0 ++ encode v
    | .putIfAbsent v => tag 1 ++ encode v
    | .putIfVersion v n => tag 2 ++ encode v ++ encode n
    | .putIfValue v current => tag 3 ++ encode v ++ encode current
    | .remove => tag 4
    | .removeIfVersion n => tag 5 ++ encode n
    | .removeIfValue current => tag 6 ++ encode current
  parse := oneOf [
    do return .put (← parse),
    do return .putIfAbsent (← parse),
    do return .putIfVersion (← parse) (← parse),
    do return .putIfValue (← parse) (← parse),
    return .remove,
    do return .removeIfVersion (← parse),
    do return .removeIfValue (← parse)]

instance : Wire Update where
  encode u := encode u.table ++ encode u.key ++ encode u.kind
  parse := do return ⟨← parse, ← parse, ← parse⟩

instance : Wire Transaction where
  encode txn := encode txn.id ++ encode txn.updates
  parse := do return ⟨← parse, ← parse⟩

instance : Wire Counters where
  encode c := encode c.values
  parse := do return ⟨← parse⟩

instance : Wire Tables where
  encode s := encode s.tables ++ encode s.nextVersion
  parse := do return ⟨← parse, ← parse⟩

instance {α : Type} [Wire α] : Wire (Outcome α) where
  encode
    | .ok a => tag 0 ++ encode a
    | .locked => tag 1
  parse := oneOf [
    do return .ok (← parse),
    return .locked]

end Lockstep
