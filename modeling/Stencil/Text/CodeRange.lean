/-!
# Sets of code points

A character class is written down as a list of ranges of code points in increasing order.
`CodeRange.member` decides membership.
-/

namespace Stencil

/-- Ranges of code points in increasing order, each with its first code point and its length. -/
abbrev CodeRange := List (Nat × Nat)

namespace CodeRange

/-- Whether a code point lies in one of the ranges. -/
def member (ranges : CodeRange) (c : Char) : Bool :=
  ranges.any fun r => decide (r.1 ≤ c.toNat) && decide (c.toNat < r.1 + r.2)

end CodeRange
end Stencil
