import Lockstep.OrdMap.Basic
import Lockstep.Text.Utf8

/-!
# The wire format

Integers have a fixed width and go least byte first. Texts, lists and maps are led by their length
in eight bytes, alternatives by their number in four, and options by one byte. Nothing else is
written, so parts stand next to each other and reading is told where to stop by the type alone.

A map is written as its entries in key order and read as any list of entries, the last of a
repeated key winning; bytes left over after the value are not looked at.
-/

namespace Lockstep

/-- What is sent and stored. -/
abbrev Bytes := List UInt8

namespace Wire

/-- Why bytes are no value. -/
inductive Fault where
  /-- They end within an integer. -/
  | endOfInput
  /-- They are fewer than the length in front of them says. -/
  | pastEnd
  /-- There is no alternative of this number among so many. -/
  | unknownVariant (tag : UInt32) (variants : Nat)
  | text (fault : Text.Utf8.Fault)
  /-- This byte stands where 0 or 1 says false or true. -/
  | flag (byte : UInt8)
  /-- This byte stands where 0 or 1 says whether a value follows. -/
  | option (byte : UInt8)
  deriving DecidableEq, Inhabited

def Fault.message : Fault → String
  | endOfInput => "io error: unexpected end of file"
  | pastEnd => "io error: "
  | unknownVariant tag variants =>
    "invalid value: integer `" ++ toString tag.toNat ++ "`, expected variant index 0 <= i < "
      ++ toString variants
  | text fault => "string is not valid utf8: " ++ fault.message
  | flag byte => "invalid u8 while decoding bool, expected 0 or 1, found " ++ toString byte.toNat
  | option byte => "tag for enum is not valid, found " ++ toString byte.toNat

/-- Reads a value from the front of the bytes and leaves the rest. -/
abbrev Reader := StateT Bytes (Except Fault)

/-- The number in so many bytes, least byte first. -/
def littleEndian : (width : Nat) → Nat → Bytes
  | 0, _ => []
  | width + 1, n => .ofNat (n % 256) :: littleEndian width (n / 256)

def ofLittleEndian : Bytes → Nat
  | [] => 0
  | b :: bs => b.toNat + 256 * ofLittleEndian bs

/-- The next `n` bytes. -/
def take (n : Nat) (short : Fault) : Reader Bytes := fun bs =>
  if bs.length < n then .error short else .ok (bs.take n, bs.drop n)

/-- So many values one after another. -/
def many {α : Type} (item : Reader α) : Nat → Reader (List α)
  | 0 => return []
  | n + 1 => do return (← item) :: (← many item n)

end Wire

/-- Values with a written form. -/
class Wire (α : Type) where
  encode : α → Bytes
  parse : Wire.Reader α

namespace Wire

/-- Reads a value from the front of the bytes, whatever comes after it. -/
def decode {α : Type} [Wire α] (bs : Bytes) : Except Fault α := (·.1) <$> (parse : Reader α) bs

instance : Wire UInt32 where
  encode n := littleEndian 4 n.toNat
  parse := do return .ofNat (ofLittleEndian (← take 4 .endOfInput))

instance : Wire UInt64 where
  encode n := littleEndian 8 n.toNat
  parse := do return .ofNat (ofLittleEndian (← take 8 .endOfInput))

instance : Wire Int64 where
  encode n := encode n.toUInt64
  parse := do return UInt64.toInt64 (← parse)

/-- One byte. -/
def byte : Reader UInt8
  | [] => .error .endOfInput
  | b :: bs => .ok (b, bs)

instance : Wire Bool where
  encode b := [if b then 1 else 0]
  parse := do
    match ← byte with
    | 0 => return false
    | 1 => return true
    | b => throw (.flag b)

/-- Nothing is written: a set is a map to `Unit`. -/
instance : Wire Unit where
  encode _ := []
  parse := return ()

/-- Bytes led by their number. -/
def encodeBlock (bs : Bytes) : Bytes := encode (UInt64.ofNat bs.length) ++ bs

def block : Reader Bytes := do
  let n : UInt64 ← parse
  take n.toNat .pastEnd

instance : Wire String where
  encode s := encodeBlock (Text.utf8 s)
  parse := do
    match Text.ofUtf8 (← block) with
    | .ok s => return s
    | .error f => throw (.text f)

variable {κ α β : Type}

instance [Wire α] [Wire β] : Wire (α × β) where
  encode p := encode p.1 ++ encode p.2
  parse := do return (← parse, ← parse)

instance [Wire α] : Wire (Option α) where
  encode
    | none => [0]
    | some a => 1 :: encode a
  parse := do
    match ← byte with
    | 0 => return none
    | 1 => return some (← parse)
    | b => throw (.option b)

instance [Wire α] : Wire (List α) where
  encode as := encode (UInt64.ofNat as.length) ++ as.flatMap encode
  parse := do
    let n : UInt64 ← parse
    many parse n.toNat

instance [Ord κ] [Std.TransOrd κ] [Std.LawfulEqOrd κ] [Wire κ] [Wire α] : Wire (OrdMap κ α) where
  encode m := encode m.entries
  parse := do return .ofList (← parse)

/-- The number of an alternative. -/
def tag (n : UInt32) : Bytes := encode n

/-- A value in one of several forms, by the number in front of it. -/
def oneOf (forms : List (Reader α)) : Reader α := do
  let n : UInt32 ← parse
  match forms[n.toNat]? with
  | some form => form
  | none => throw (.unknownVariant n forms.length)

end Wire

end Lockstep
