/-!
# Outcomes

What an operation answers when a lock may stand in its way. `locked` is not a failed condition:
the operation was not tried at all.
-/

namespace Lockstep

/-- The answer of an operation, or word that a lock kept it from being tried. -/
inductive Outcome (α : Type) where
  | ok (value : α)
  | locked
  deriving DecidableEq, Inhabited

namespace Outcome

variable {α β : Type}

def isLocked : Outcome α → Bool
  | ok _ => false
  | locked => true

def isOk : Outcome α → Bool
  | ok _ => true
  | locked => false

def value? : Outcome α → Option α
  | ok a => some a
  | locked => none

def map (f : α → β) : Outcome α → Outcome β
  | ok a => ok (f a)
  | locked => locked

/-- A conditional operation won: it was tried, and its condition held. -/
def succeeded : Outcome Bool → Bool
  | ok b => b
  | locked => false

end Outcome

end Lockstep
