/-!
# Blank text

The characters with the Unicode property White_Space.
-/

namespace Lockstep.Text

/-- The ranges of White_Space in ascending order, both ends included. -/
def blankRanges : List (Nat × Nat) :=
  [(0x0009, 0x000D), (0x0020, 0x0020), (0x0085, 0x0085), (0x00A0, 0x00A0), (0x1680, 0x1680),
    (0x2000, 0x200A), (0x2028, 0x2029), (0x202F, 0x202F), (0x205F, 0x205F), (0x3000, 0x3000)]

def isBlank (c : Char) : Bool := blankRanges.any fun r => r.1 ≤ c.toNat ∧ c.toNat ≤ r.2

/-- Nothing is left of the text when it is trimmed. -/
def allBlank (s : String) : Bool := s.toList.all isBlank

example : (blankRanges.map fun r => r.2 + 1 - r.1).sum = 25 := rfl

example : blankRanges.Pairwise fun r s => r.2 < s.1 := by decide

end Lockstep.Text
