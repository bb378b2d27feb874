import Lockstep.Text.Parser

/-!
# TOML strings, keys and blanks

Strings come in two kinds, with escapes and without, each on one line or on several. Over several
lines a newline right after the opening quotes does not count, every newline reads as a line feed,
and up to two quotes may stand anywhere, also right before the closing ones.
-/

namespace Lockstep.Toml

open Lockstep.Text Parser

/-- Blanks within a line. -/
def isBlank (c : Char) : Bool := c = ' ' ∨ c = '\t'

/-- Characters that may stand in a comment: no control character but the tab. -/
def isPlain (c : Char) : Bool := c = '\t' ∨ (0x20 ≤ c.toNat ∧ c.toNat ≠ 0x7F)

def blanks : Parser Unit := discard (span isBlank)

def newline : Parser Unit := literal "\r\n" <|> char '\n'

def comment : Parser Unit := char '#' *> discard (span isPlain)

/-- Blanks, newlines and comments. -/
def gap : Parser Unit := discard (many (discard (next isBlank) <|> newline <|> comment))

/-- The value of a hexadecimal digit in either case. -/
def digitValue (c : Char) : Nat :=
  if c.isDigit then c.toNat - 48 else if c.isLower then c.toNat - 87 else c.toNat - 55

def isHexDigit (c : Char) : Bool :=
  c.isDigit || ('a' ≤ c && c ≤ 'f') || ('A' ≤ c && c ≤ 'F')

/-- The number that digits write in a base. -/
def ofDigits (base : Nat) (ds : List Char) : Nat :=
  ds.foldl (fun n d => n * base + digitValue d) 0

/-- The character of a code point in so many digits. -/
def codePoint (width : Nat) : Parser Char := do
  let n := ofDigits 16 (← exactly (next isHexDigit) width)
  if n.isValidChar then return .ofNat n else failure

/-- A character behind a backslash. -/
def escape : Parser Char := do
  char '\\'
  match ← next fun _ => true with
  | 'b' => return '\x08'
  | 't' => return '\t'
  | 'n' => return '\n'
  | 'f' => return '\x0C'
  | 'r' => return '\r'
  | '"' => return '"'
  | '\\' => return '\\'
  | 'u' => codePoint 4
  | 'U' => codePoint 8
  | _ => failure

/-- A character of a string with escapes. -/
def basicChar : Parser Char := next (fun c => isPlain c && c != '"' && c != '\\') <|> escape

def literalChar : Parser Char := next fun c => isPlain c && c != '\''

def oneLine (quote : Char) (item : Parser Char) : Parser String := do
  char quote
  let cs ← many item
  char quote
  return .ofList cs

/-- A backslash at the end of a line, and the blanks and newlines up to the next character. -/
def joinedLine : Parser (List Char) := do
  char '\\'
  blanks
  newline
  let _ ← many (discard (next isBlank) <|> newline)
  return []

/-- One or two quotes that do not close the string. -/
def looseQuotes (quote : Char) : Parser (List Char) := do
  let qs ← span (· == quote)
  if qs.length = 1 ∨ qs.length = 2 then return qs else failure

/-- The quotes that close a string, less the last three. -/
def closingQuotes (quote : Char) : Parser (List Char) := do
  let qs ← span (· == quote)
  if 3 ≤ qs.length ∧ qs.length ≤ 5 then return qs.drop 3 else failure

def manyLines (quote : Char) (item : Parser (List Char)) : Parser String := do
  let _ ← exactly (char quote) 3
  let _ ← optional newline
  let parts ← many (item <|> (newline *> return ['\n']) <|> looseQuotes quote)
  return .ofList (parts.flatten ++ (← closingQuotes quote))

def string : Parser String :=
  manyLines '"' (joinedLine <|> (do return [← basicChar]))
    <|> manyLines '\'' (do return [← literalChar])
    <|> oneLine '"' basicChar
    <|> oneLine '\'' literalChar

def isBareKeyChar (c : Char) : Bool := c.isAlphanum || c == '_' || c == '-'

def keyPart : Parser String :=
  oneLine '"' basicChar <|> oneLine '\'' literalChar <|> do
    let cs ← span isBareKeyChar
    if cs.isEmpty then failure else return .ofList cs

/-- How deep keys and values may go. -/
def depthLimit : Nat := 80

/-- A dotted key, with blanks around its parts. -/
def key : Parser (List String) := do
  let ks ← sepBy (blanks *> keyPart <* blanks) (char '.')
  if ks.length < depthLimit then return ks else failure

end Lockstep.Toml
