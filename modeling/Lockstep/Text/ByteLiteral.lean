/-!
# Byte literals

The quoted form of a byte string, one escape for each byte that is not printable.
-/

namespace Lockstep.Text

/-- The two lower-case hexadecimal digits of a byte. -/
def hexDigits (b : UInt8) : List Char :=
  [Nat.digitChar (b.toNat / 16), Nat.digitChar (b.toNat % 16)]

/-- A byte inside quotes: the six named escapes, printable characters as they stand, and the rest
by number. -/
def quotedByte (b : UInt8) : List Char :=
  if b = 0x0A then ['\\', 'n']
  else if b = 0x0D then ['\\', 'r']
  else if b = 0x09 then ['\\', 't']
  else if b = 0x5C then ['\\', '\\']
  else if b = 0x22 then ['\\', '"']
  else if b = 0 then ['\\', '0']
  else if 0x20 ≤ b ∧ b ≤ 0x7E then [Char.ofNat b.toNat]
  else '\\' :: 'x' :: hexDigits b

/-- A byte string between `b"` and `"`. -/
def byteLiteral (bs : List UInt8) : String :=
  String.ofList ('b' :: '"' :: bs.flatMap quotedByte ++ ['"'])

end Lockstep.Text
