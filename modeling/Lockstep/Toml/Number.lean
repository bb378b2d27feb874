import Lockstep.Toml.Quoted

/-!
# TOML numbers and times

Integers are those of 64 bits with a sign. A float is refused when rounding would take it up to
infinity. Times are checked to name a date of the calendar and a time of the day, leap seconds
included.
-/

namespace Lockstep.Toml

open Lockstep.Text Parser

/-- Digits, with single underscores between them if wanted. -/
def digits (isDigit : Char → Bool) : Parser (List Char) := do
  let d ← next isDigit
  let ds ← many (next isDigit <|> char '_' *> next isDigit)
  return d :: ds

/-- The sign of a number: whether it is negative. -/
def sign : Parser Bool :=
  (char '-' *> return true) <|> (char '+' *> return false) <|> return false

/-- A sign and decimal digits, of which the first is 0 only where it is the only one. -/
def wholePart : Parser (Bool × List Char) := do
  let negative ← sign
  let ds ← (char '0' *> return ['0']) <|> digits Char.isDigit
  return (negative, ds)

/-- An integer in a base that its first two characters name. -/
def inBase (mark : String) (base : Nat) (isDigit : Char → Bool) : Parser Int := do
  literal mark
  return ofDigits base (← digits isDigit)

def decimalInteger : Parser Int := do
  let (negative, ds) ← wholePart
  let n : Int := ofDigits 10 ds
  return if negative then -n else n

def integer : Parser Int := do
  let n ← inBase "0x" 16 isHexDigit
    <|> inBase "0o" 8 (fun c => '0' ≤ c && c ≤ '7')
    <|> inBase "0b" 2 (fun c => c == '0' || c == '1')
    <|> decimalInteger
  if Int64.minValue.toInt ≤ n ∧ n ≤ Int64.maxValue.toInt then return n else failure

/-- Half-way from the greatest finite number of 64-bit floating point to the next power of two. -/
def overflowLimit : Nat := Nat.pow 2 1024 - Nat.pow 2 970

/-- The number of these digits times a power of ten is as large as `overflowLimit`. Only where the
first digit stands at its place is there need to compare. -/
def overflows (ds : List Char) (exponent : Int) : Bool :=
  let ds := ds.dropWhile (· == '0')
  let places := ds.length + exponent
  if ds.isEmpty ∨ places < 309 then false
  else if 309 < places then true
  else overflowLimit * Nat.pow 10 (-exponent).toNat ≤ ofDigits 10 ds * Nat.pow 10 exponent.toNat

def exponentPart : Parser Int := do
  char 'e' <|> char 'E'
  let negative ← sign
  let n : Int := ofDigits 10 (← digits Char.isDigit)
  return if negative then -n else n

/-- A float with a fraction, an exponent or both. -/
def finiteFloat : Parser Unit := do
  let (negative, whole) ← wholePart
  let fraction ← optional (char '.' *> digits Char.isDigit)
  let exponent ← optional exponentPart
  let fractionDigits := fraction.getD []
  if fraction.isNone && exponent.isNone then failure
  else if negative then return
  else if overflows (whole ++ fractionDigits) (exponent.getD 0 - fractionDigits.length) then failure
  else return

def float : Parser String :=
  taken (finiteFloat <|> sign *> (literal "inf" <|> literal "nan"))

def bounded (width low high : Nat) : Parser Nat := do
  let n := ofDigits 10 (← exactly (next Char.isDigit) width)
  if low ≤ n ∧ n ≤ high then return n else failure

def isLeapYear (year : Nat) : Bool := year % 4 = 0 ∧ (year % 100 ≠ 0 ∨ year % 400 = 0)

def daysIn (year month : Nat) : Nat :=
  if month = 2 then if isLeapYear year then 29 else 28
  else if month ∈ [4, 6, 9, 11] then 30
  else 31

def date : Parser Unit := do
  let year ← bounded 4 0 9999
  char '-'
  let month ← bounded 2 1 12
  char '-'
  let _ ← bounded 2 1 (daysIn year month)

def timeOfDay : Parser Unit := do
  let _ ← bounded 2 0 23
  char ':'
  let _ ← bounded 2 0 59
  char ':'
  let _ ← bounded 2 0 60
  let _ ← optional (char '.' *> next Char.isDigit *> span Char.isDigit)

def offset : Parser Unit :=
  char 'Z' <|> char 'z' <|> do
    char '+' <|> char '-'
    let _ ← bounded 2 0 23
    char ':'
    let _ ← bounded 2 0 59

/-- A date, with a time of the day and its offset if wanted, or a time of the day alone. -/
def time : Parser String :=
  taken ((date *> discard (optional
      (next (fun c => c == 'T' || c == 't' || c == ' ') *> timeOfDay *> optional offset)))
    <|> timeOfDay)

end Lockstep.Toml
