/-!
# TOML values

A document is a table of values. It is built up by assignments to dotted keys within the table a
header opens, and a table may be reopened or not according to what first made it (`Origin`): a
header may come after tables it contains, a dotted key may add to a table that dotted keys made,
and an inline table is closed when it is written.
-/

namespace Lockstep.Toml

/-- What first made a table. -/
inductive Origin where
  /-- It is written in braces. -/
  | inline
  /-- It has a header of its own. -/
  | header
  /-- It stands in the header of a table within it. -/
  | parent
  /-- It stands in a dotted key. -/
  | dotted
  deriving DecidableEq, Inhabited

/-- A value. Floats and times are kept as they are written. -/
inductive Value where
  | string (s : String)
  | integer (n : Int)
  | float (literal : String)
  | boolean (b : Bool)
  | time (literal : String)
  | array (items : List Value)
  | table (origin : Origin) (entries : List (String × Value))
  /-- Tables that came one after another under a header in double brackets. -/
  | tables (items : List (List (String × Value)))
  deriving Inhabited

/-- The keys of a table, each once, and their values. -/
abbrev Entries := List (String × Value)

namespace Entries

/-- Sets the value of a key from the value it has, if any. -/
def alter (k : String) (f : Option Value → Option Value) : Entries → Option Entries
  | [] => (f none).map fun v => [(k, v)]
  | (l, v) :: es =>
    if k = l then (f (some v)).map fun v => (l, v) :: es
    else (alter k f es).map ((l, v) :: ·)

/-- Changes the last of a list of tables. -/
def onLast (f : Entries → Option Entries) : List Entries → Option (List Entries)
  | [] => none
  | [es] => (f es).map ([·])
  | es :: rest => (onLast f rest).map (es :: ·)

/-- Gives a value to a dotted key that has none. The tables on the way must not have been closed,
and the key itself must not be added to a table that a header made. -/
def assign (v : Value) : (path : List String) → Entries → Option Entries
  | [], _ => none
  | [k], es => alter k (fun old => if old.isNone then some v else none) es
  | k :: l :: path, es =>
    let isLast := path.isEmpty
    alter k (fun
      | none => (assign v (l :: path) []).map (.table .dotted)
      | some (.table .dotted inner) => (assign v (l :: path) inner).map (.table .dotted)
      | some (.table .parent inner) =>
        if isLast then none else (assign v (l :: path) inner).map (.table .parent)
      | some (.tables items) =>
        if isLast then none else (onLast (assign v (l :: path)) items).map .tables
      | some _ => none) es

/-- Changes the table at a path of headers. Tables on the way come into being as they are named,
and of tables in a list the last one is meant. -/
def within (f : Entries → Option Entries) : (path : List String) → Entries → Option Entries
  | [], es => f es
  | k :: path, es =>
    alter k (fun
      | none => (within f path []).map (.table .parent)
      | some (.table .inline _) => none
      | some (.table origin inner) => (within f path inner).map (.table origin)
      | some (.tables items) => (onLast (within f path) items).map .tables
      | some _ => none) es

/-- Opens the table of a header, which may so far have been named on the way to others only, and
fills it. -/
def openTable (k : String) (fill : Entries → Option Entries) (es : Entries) : Option Entries :=
  alter k (fun
    | none => (fill []).map (.table .header)
    | some (.table .parent inner) => (fill inner).map (.table .header)
    | some _ => none) es

/-- Opens one more table of a list and fills it. -/
def appendTable (k : String) (fill : Entries → Option Entries) (es : Entries) : Option Entries :=
  alter k (fun
    | none => (fill []).map fun inner => .tables [inner]
    | some (.tables items) => (fill []).map fun inner => .tables (items ++ [inner])
    | some _ => none) es

def assignAll (body : List (List String × Value)) (es : Entries) : Option Entries :=
  body.foldlM (fun es a => assign a.2 a.1 es) es

def get? (es : Entries) (k : String) : Option Value := es.lookup k

end Entries

end Lockstep.Toml
