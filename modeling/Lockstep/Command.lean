import Lockstep.OrdMap.Basic
import Lockstep.Outcome
import Lockstep.Transaction

/-!
# Commands and their answers

The operations a replica can be told to perform, by what they may touch: queries touch nothing, a
key write touches one key, a clear one table, and the four transaction commands the keys the
transaction names.
-/

namespace Lockstep

inductive Query where
  | tableNames
  | counters
  | size (table : String)
  | isEmpty (table : String)
  | containsKey (table key : String)
  | containsValue (table : String) (value : Value)
  | get (table key : String)
  | keySet (table : String)
  | values (table : String)
  | entries (table : String)
  deriving DecidableEq, Inhabited

inductive KeyWrite where
  | put (value : Value)
  | putIfAbsent (value : Value)
  | remove
  | removeIfValue (value : Value)
  | removeIfVersion (version : UInt64)
  | replaceValue (old new : Value)
  | replaceVersion (old : UInt64) (new : Value)
  deriving DecidableEq, Inhabited

/-- An entry of the replicated log. -/
inductive Command where
  | query (q : Query)
  | write (table key : String) (w : KeyWrite)
  | clear (table : String)
  | nextValue (counter : String)
  | currentValue (counter : String)
  | prepare (txn : Transaction)
  | commit (txn : Transaction)
  | rollback (txn : Transaction)
  | prepareAndCommit (txn : Transaction)
  deriving DecidableEq, Inhabited

/-- The transaction a command would prepare. -/
def Command.prepares? : Command → Option Transaction
  | prepare txn | prepareAndCommit txn => some txn
  | _ => none

/-- The value a command answers with. -/
inductive Output where
  | unit
  | flag (b : Bool)
  | count (n : UInt64)
  | value (entry : Option Versioned)
  | keys (ks : OrdSet String)
  | values (vs : List Versioned)
  | entries (es : List (String × Versioned))
  | counter (n : Int64)
  | tableNames (ts : OrdSet String)
  | counters (cs : OrdMap String Int64)
  deriving DecidableEq, Inhabited

/-- The answer to the entry at an index of the log. -/
structure Applied where
  index : UInt64
  outcome : Outcome Output
  deriving DecidableEq, Inhabited

end Lockstep
