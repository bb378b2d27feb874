/-!
# UTF-8

Text as bytes and back. Bytes that are no text are refused with the place of the first fault: an
ill-formed sequence, or a sequence that the end of the bytes cuts short.
-/

namespace Lockstep.Text

def utf8 (s : String) : List UInt8 := s.toUTF8.data.toList

namespace Utf8

/-- Why bytes are no text. -/
inductive Fault where
  /-- The bytes of this number from the index on begin a character but do not go on as one. -/
  | invalid (length index : Nat)
  /-- The bytes end within the character that begins at the index. -/
  | incomplete (index : Nat)
  deriving DecidableEq, Inhabited

def Fault.message : Fault → String
  | invalid length index =>
    "invalid utf-8 sequence of " ++ toString length ++ " bytes from index " ++ toString index
  | incomplete index => "incomplete utf-8 byte sequence from index " ++ toString index

/-- The ranges of the bytes that follow a first byte, if it may begin a character. The range right
after it leaves out overlong forms, surrogates, and numbers above the last code point. -/
def following (lead : UInt8) : Option (List (UInt8 × UInt8)) :=
  let tail : UInt8 × UInt8 := (0x80, 0xBF)
  if lead ≤ 0x7F then some []
  else if lead ≤ 0xC1 then none
  else if lead ≤ 0xDF then some [tail]
  else if lead = 0xE0 then some [(0xA0, 0xBF), tail]
  else if lead = 0xED then some [(0x80, 0x9F), tail]
  else if lead ≤ 0xEF then some [tail, tail]
  else if lead = 0xF0 then some [(0x90, 0xBF), tail, tail]
  else if lead ≤ 0xF3 then some [tail, tail, tail]
  else if lead = 0xF4 then some [(0x80, 0x8F), tail, tail]
  else none

/-- How many bytes lie in their ranges, up to the first that does not. -/
def matched : List (UInt8 × UInt8) → List UInt8 → Nat
  | (low, high) :: ranges, b :: bs => if low ≤ b ∧ b ≤ high then matched ranges bs + 1 else 0
  | _, _ => 0

/-- The first fault of bytes that start at the index. Where there is none, the end is named. -/
def fault (index : Nat) : List UInt8 → Fault
  | [] => .incomplete index
  | b :: bs =>
    match following b with
    | none => .invalid 1 index
    | some ranges =>
      let n := matched ranges bs
      if n = ranges.length then fault (index + n + 1) (bs.drop n)
      else if n = bs.length then .incomplete index
      else .invalid (n + 1) index
  termination_by bs => bs.length
  decreasing_by exact Nat.lt_succ_of_le (List.length_drop ▸ Nat.sub_le _ _)

end Utf8

/-- The text of the bytes, or where they stop being one. -/
def ofUtf8 (bs : List UInt8) : Except Utf8.Fault String :=
  match String.fromUTF8? ⟨bs.toArray⟩ with
  | some s => .ok s
  | none => .error (Utf8.fault 0 bs)

end Lockstep.Text
