import Lockstep.Error
import Lockstep.Wire.Records

/-!
# Written forms of commands and their answers

An entry of the log is one command. Bytes that are none break the protocol between the replicas.
-/

namespace Lockstep

open Wire

instance : Wire Command where
  encode
    | .query .tableNames => tag 0
    | .query .counters => tag 1
    | .query (.size t) => tag 2 ++ encode t
    | .query (.isEmpty t) => tag 3 ++ encode t
    | .query (.containsKey t k) => tag 4 ++ encode t ++ encode k
    | .query (.containsValue t v) => tag 5 ++ encode t ++ encode v
    | .query (.get t k) => tag 6 ++ encode t ++ encode k
    | .query (.keySet t) => tag 7 ++ encode t
    | .query (.values t) => tag 8 ++ encode t
    | .query (.entries t) => tag 9 ++ encode t
    | .write t k (.put v) => tag 10 ++ encode t ++ encode k ++ encode v
    | .write t k (.putIfAbsent v) => tag 11 ++ encode t ++ encode k ++ encode v
    | .write t k .remove => tag 12 ++ encode t ++ encode k
    | .write t k (.removeIfValue v) => tag 13 ++ encode t ++ encode k ++ encode v
    | .write t k (.removeIfVersion n) => tag 14 ++ encode t ++ encode k ++ encode n
    | .write t k (.replaceValue old new) =>
      tag 15 ++ encode t ++ encode k ++ encode old ++ encode new
    | .write t k (.replaceVersion old new) =>
      tag 16 ++ encode t ++ encode k ++ encode old ++ encode new
    | .clear t => tag 17 ++ encode t
    | .nextValue name => tag 18 ++ encode name
    | .currentValue name => tag 19 ++ encode name
    | .prepare txn => tag 20 ++ encode txn
    | .commit txn => tag 21 ++ encode txn
    | .rollback txn => tag 22 ++ encode txn
    | .prepareAndCommit txn => tag 23 ++ encode txn
  parse := oneOf [
    return .query .tableNames,
    return .query .counters,
    do return .query (.size (← parse)),
    do return .query (.isEmpty (← parse)),
    do return .query (.containsKey (← parse) (← parse)),
    do return .query (.containsValue (← parse) (← parse)),
    do return .query (.get (← parse) (← parse)),
    do return .query (.keySet (← parse)),
    do return .query (.values (← parse)),
    do return .query (.entries (← parse)),
    do return .write (← parse) (← parse) (.put (← parse)),
    do return .write (← parse) (← parse) (.putIfAbsent (← parse)),
    do return .write (← parse) (← parse) .remove,
    do return .write (← parse) (← parse) (.removeIfValue (← parse)),
    do return .write (← parse) (← parse) (.removeIfVersion (← parse)),
    do return .write (← parse) (← parse) (.replaceValue (← parse) (← parse)),
    do return .write (← parse) (← parse) (.replaceVersion (← parse) (← parse)),
    do return .clear (← parse),
    do return .nextValue (← parse),
    do return .currentValue (← parse),
    do return .prepare (← parse),
    do return .commit (← parse),
    do return .rollback (← parse),
    do return .prepareAndCommit (← parse)]

/-- The command at the front of an entry of the log. -/
def Command.decode (bs : Bytes) : Except Error Command :=
  (Wire.decode bs).mapError fun f => .protocolViolation ("undecodable command: " ++ f.message)

instance : Wire Output where
  encode
    | .unit => tag 0
    | .flag b => tag 1 ++ encode b
    | .count n => tag 2 ++ encode n
    | .value e => tag 3 ++ encode e
    | .keys ks => tag 4 ++ encode ks
    | .values vs => tag 5 ++ encode vs
    | .entries es => tag 6 ++ encode es
    | .counter n => tag 7 ++ encode n
    | .tableNames ts => tag 8 ++ encode ts
    | .counters cs => tag 9 ++ encode cs
  parse := oneOf [
    return .unit,
    do return .flag (← parse),
    do return .count (← parse),
    do return .value (← parse),
    do return .keys (← parse),
    do return .values (← parse),
    do return .entries (← parse),
    do return .counter (← parse),
    do return .tableNames (← parse),
    do return .counters (← parse)]

instance : Wire Applied where
  encode r := encode r.index ++ encode r.outcome
  parse := do return ⟨← parse, ← parse⟩

end Lockstep
