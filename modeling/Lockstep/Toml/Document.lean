import Lockstep.Toml.Number
import Lockstep.Toml.Value

/-!
# TOML documents

A document is read line by line into headers and assignments, and these build its table. Arrays and
inline tables may contain each other to a fixed depth.
-/

namespace Lockstep.Toml

open Lockstep.Text Parser

def boolean : Parser Bool := (literal "true" *> return true) <|> (literal "false" *> return false)

/-- A value with nothing inside it. -/
def scalar : Parser Value :=
  (do return .string (← string))
    <|> (do return .boolean (← boolean))
    <|> (do return .time (← time))
    <|> (do return .float (← float))
    <|> (do return .integer (← integer))

/-- Items in brackets, with a comma after the last if wanted. -/
def array (item : Parser Value) : Parser Value := do
  char '['
  let items ← optional (sepBy (gap *> item <* gap) (char ',') <* optional (char ','))
  gap
  char ']'
  return .array (items.getD [])

/-- A dotted key and its value. -/
def assignment (item : Parser Value) : Parser (List String × Value) := do
  let k ← key
  char '='
  blanks
  return (k, ← item)

/-- Assignments in braces on one line. -/
def inlineTable (item : Parser Value) : Parser Value := do
  char '{'
  let body ← optional (sepBy (assignment item <* blanks) (char ','))
  blanks
  char '}'
  match Entries.assignAll (body.getD []) [] with
  | some es => return .table .inline es
  | none => failure

/-- A value that arrays and inline tables may surround so many times more. -/
def value : (room : Nat) → Parser Value
  | 0 => scalar
  | room + 1 => array (value room) <|> inlineTable (value room) <|> scalar

/-- A line that says something. -/
inductive Statement where
  | assign (key : List String) (v : Value)
  | table (path : List String)
  | appendTable (path : List String)

def statement : Parser Statement :=
  (do return .appendTable (← literal "[[" *> key <* literal "]]"))
    <|> (do return .table (← char '[' *> key <* char ']'))
    <|> do
      let (k, v) ← assignment (value (depthLimit - 1))
      return .assign k v

/-- A line up to its end. -/
def line : Parser (Option Statement) := blanks *> optional statement <* blanks <* optional comment

/-- The lines of a text, which may begin with a byte order mark. -/
def lines : Parser (List Statement) := do
  let _ ← optional (char '\uFEFF')
  let first ← line
  let rest ← many (newline *> line)
  atEnd
  return (first :: rest).filterMap id

/-- The assignments up to the first header, and each header with those that follow it. -/
def sections : List Statement →
    List (List String × Value) × List (Statement × List (List String × Value))
  | [] => ([], [])
  | .assign k v :: ss =>
    let (body, rest) := sections ss
    ((k, v) :: body, rest)
  | header :: ss =>
    let (body, rest) := sections ss
    ([], (header, body) :: rest)

/-- Opens the table a header names and makes the assignments in it. -/
def addSection (es : Entries) (s : Statement × List (List String × Value)) : Option Entries :=
  let (header, body) := s
  let fill := Entries.assignAll body
  let at? (path : List String) (f : String → Entries → Option Entries) : Option Entries :=
    path.getLast?.bind fun k => Entries.within (f k) path.dropLast es
  match header with
  | .table path => at? path fun k => Entries.openTable k fill
  | .appendTable path => at? path fun k => Entries.appendTable k fill
  | .assign k v => Entries.assign v k es

/-- The table that the lines of a document build. -/
def build (ss : List Statement) : Option Entries :=
  let (body, rest) := sections ss
  Entries.assignAll body [] >>= fun es => rest.foldlM addSection es

/-- The table of a document, if it is one. -/
def parse? (text : String) : Option Entries := do
  let (ss, _) ← lines text.toList
  build ss

end Lockstep.Toml
