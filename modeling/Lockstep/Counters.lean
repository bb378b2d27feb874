import Lockstep.OrdMap.Basic

/-!
# Named counters

A counter comes into being at zero when it is first named, even by a read.
-/

namespace Lockstep

structure Counters where
  values : OrdMap String Int64
  deriving DecidableEq, Inhabited

namespace Counters

instance : EmptyCollection Counters := ⟨⟨∅⟩⟩

/-- A counter that was never named stands at zero. -/
def value (c : Counters) (name : String) : Int64 := (c.values.get? name).getD 0

/-- Adds one, wrapping from the greatest value to the least, and returns the new value. -/
def next (c : Counters) (name : String) : Int64 × Counters :=
  let n := c.value name + 1
  (n, ⟨c.values.insert name n⟩)

/-- Returns the value and keeps the counter from now on. -/
def current (c : Counters) (name : String) : Int64 × Counters :=
  let n := c.value name
  (n, ⟨c.values.insert name n⟩)

def size (c : Counters) : Nat := c.values.size

def isEmpty (c : Counters) : Bool := c.values.isEmpty

end Counters

end Lockstep
