/-!
# Reading text

A parser takes characters from the front of a text. One that fails has taken none, so alternatives
(`<|>`) start from the same place.
-/

namespace Lockstep.Text

/-- Reads a value from the front of a text and leaves the rest. -/
abbrev Parser := StateT (List Char) Option

namespace Parser

variable {α β : Type}

/-- The next character, if it passes the test. -/
def next (p : Char → Bool) : Parser Char
  | c :: cs => if p c then some (c, cs) else none
  | [] => none

def char (c : Char) : Parser Unit := discard (next (· == c))

/-- Exactly this text. -/
def literal (s : String) : Parser Unit := fun cs =>
  if s.toList.isPrefixOf cs then some ((), cs.drop s.length) else none

/-- The characters up to the first that fails the test. -/
def span (p : Char → Bool) : Parser (List Char) := fun cs => some (cs.span p)

/-- There is nothing left. -/
def atEnd : Parser Unit
  | [] => some ((), [])
  | _ :: _ => none

/-- So many items one after another. -/
def exactly (item : Parser α) : Nat → Parser (List α)
  | 0 => return []
  | n + 1 => do return (← item) :: (← exactly item n)

/-- Items one after another while they can be read, at most so many. -/
def upTo (item : Parser α) : Nat → Parser (List α)
  | 0 => return []
  | n + 1 => (do return (← item) :: (← upTo item n)) <|> return []

/-- Items one after another while they can be read. Each is to take a character at least, so there
are no more of them than characters. -/
def many (item : Parser α) : Parser (List α) := fun cs => upTo item cs.length cs

/-- One item or more with separators between them. -/
def sepBy (item : Parser α) (separator : Parser β) : Parser (List α) := do
  return (← item) :: (← many (separator *> item))

/-- The text that the parser takes. -/
def taken (p : Parser α) : Parser String := fun cs => do
  let (_, rest) ← p cs
  return (String.ofList (cs.take (cs.length - rest.length)), rest)

end Parser

end Lockstep.Text
