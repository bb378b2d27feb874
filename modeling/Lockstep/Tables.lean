import Lockstep.OrdMap.Basic
import Lockstep.Transaction

/-!
# Tables

The committed entries of each table by key, and the last version handed out. Every write of a
value takes the next version; a removal takes none. A table is listed once a write to it has been
tried, whether or not its condition held, and stays listed when its last key goes.
-/

namespace Lockstep

abbrev Table := OrdMap String Versioned

/-- All tables, and the last version handed out. -/
structure Tables where
  tables : OrdMap String Table
  nextVersion : UInt64
  deriving DecidableEq, Inhabited

namespace Tables

instance : EmptyCollection Tables := ⟨⟨∅, 0⟩⟩

/-- Why tables cannot be taken over with a given last version. -/
inductive Fault where
  /-- The last version is the greatest there is. -/
  | exhausted
  /-- Some entry carries a version above the last one handed out. -/
  | behind (nextVersion highest : UInt64)
  deriving DecidableEq

def Fault.message : Fault → String
  | exhausted => "nextVersion region is exhausted"
  | behind nextVersion highest =>
    "nextVersion " ++ toString nextVersion.toNat ++ " is below stored version "
      ++ toString highest.toNat

def versions (tables : OrdMap String Table) : List UInt64 :=
  tables.values.flatMap fun t => t.values.map (·.version)

/-- Takes over stored tables. The last version must leave room for another write and must not be
below a stored version, or versions would repeat. -/
def ofParts (tables : OrdMap String Table) (nextVersion : UInt64) : Except Fault Tables :=
  let highest := (versions tables).foldl (fun m n => if m < n then n else m) 0
  if nextVersion.toNat + 1 = UInt64.size then .error .exhausted
  else if nextVersion < highest then .error (.behind nextVersion highest)
  else .ok ⟨tables, nextVersion⟩

/-- The entries of a table; a table never written to has none. -/
def table (s : Tables) (t : String) : Table := (s.tables.get? t).getD ∅

def get? (s : Tables) (t k : String) : Option Versioned := (s.table t).get? k

def names (s : Tables) : OrdSet String := s.tables.keySet

def size (s : Tables) (t : String) : Nat := (s.table t).size

def isEmpty (s : Tables) (t : String) : Bool := (s.table t).isEmpty

def containsKey (s : Tables) (t k : String) : Bool := (s.get? t k).isSome

def containsValue (s : Tables) (t : String) (v : Value) : Bool :=
  (s.table t).values.any (·.value = v)

def keySet (s : Tables) (t : String) : OrdSet String := (s.table t).keySet

/-- The entries' values in key order. -/
def values (s : Tables) (t : String) : List Versioned := (s.table t).values

/-- The entries in key order. -/
def entries (s : Tables) (t : String) : List (String × Versioned) := (s.table t).entries

def keyCount (s : Tables) : Nat := s.tables.total

/-- Lists the table, with the entries it has. -/
def touch (s : Tables) (t : String) : Tables := { s with tables := s.tables.insert t (s.table t) }

/-- Writes a value under the next version and returns the entry it replaces. -/
def put (s : Tables) (t k : String) (v : Value) : Option Versioned × Tables :=
  let version := s.nextVersion + 1
  (s.get? t k, ⟨s.tables.insert t ((s.table t).insert k ⟨v, version⟩), version⟩)

/-- Writes unless the key has an entry, which is then returned. -/
def putIfAbsent (s : Tables) (t k : String) (v : Value) : Option Versioned × Tables :=
  match s.get? t k with
  | some e => (some e, s)
  | none => s.put t k v

/-- Removes a key and returns its entry. -/
def remove (s : Tables) (t k : String) : Option Versioned × Tables :=
  (s.get? t k, { s with tables := s.tables.insert t ((s.table t).erase k) })

/-- Removes a key if it has an entry that passes the test. -/
def removeIf (s : Tables) (t k : String) (p : Versioned → Bool) : Bool × Tables :=
  if (s.get? t k).any p then (true, (s.remove t k).2) else (false, s.touch t)

/-- Writes to a key if it has an entry that passes the test. -/
def replaceIf (s : Tables) (t k : String) (p : Versioned → Bool) (v : Value) : Bool × Tables :=
  if (s.get? t k).any p then (true, (s.put t k v).2) else (false, s.touch t)

def removeIfValue (s : Tables) (t k : String) (expected : Value) : Bool × Tables :=
  s.removeIf t k (·.value = expected)

def removeIfVersion (s : Tables) (t k : String) (expected : UInt64) : Bool × Tables :=
  s.removeIf t k (·.version = expected)

def replaceValue (s : Tables) (t k : String) (old new : Value) : Bool × Tables :=
  s.replaceIf t k (·.value = old) new

def replaceVersion (s : Tables) (t k : String) (old : UInt64) (new : Value) : Bool × Tables :=
  s.replaceIf t k (·.version = old) new

/-- Makes the write that waited in a lock. -/
def settle (s : Tables) (t k : String) : PendingWrite → Tables
  | .put v => (s.put t k v).2
  | .tombstone => (s.remove t k).2

def clear (s : Tables) (t : String) : Tables := { s with tables := s.tables.insert t ∅ }

end Tables

end Lockstep
