import Lockstep.Text.ByteLiteral

/-!
# Stored values

A value is a byte string the store never looks into. Committed, it carries the number of the write
that made it; one sequence of numbers serves all tables.
-/

namespace Lockstep

structure Value where
  bytes : List UInt8
  deriving DecidableEq, Inhabited

/-- A committed value and the number of the write that made it. -/
structure Versioned where
  value : Value
  version : UInt64
  deriving DecidableEq, Inhabited

/-- The value as a byte literal, then `@v` and its version. -/
def Versioned.text (e : Versioned) : String :=
  Text.byteLiteral e.value.bytes ++ "@v" ++ toString e.version.toNat

end Lockstep
