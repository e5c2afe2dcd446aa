import Stencil.Number.Binary64

/-!
# Shortest decimals

The decimal with the fewest digits that reads back as a given binary number; of several the one
nearest to the number, and of two equally near ones the one with the even last digit.

Input: a positive number `m · 2 ^ q`.

Algorithm: the reals that round to the number form an interval, which has its ends included when
`m` is even.  For one, two, … seventeen digits the two neighbours of the number on the grid of
decimals with so many digits are tested, and the first grid with a hit gives the result.
-/

namespace Stencil

/-- The positive decimal `coefficient · 10 ^ exponent`. -/
structure Decimal where
  coefficient : Nat
  exponent : Int

namespace Decimal

/-- The value of a decimal. -/
def toFraction (d : Decimal) : Fraction := Fraction.scaled d.coefficient 10 d.exponent

/-- A decimal without trailing zeros in its coefficient, of which at most `fuel` are removed. -/
def strip : (fuel : Nat) → Decimal → Decimal
  | 0, d => d
  | fuel + 1, d =>
    if d.coefficient ≠ 0 ∧ d.coefficient % 10 = 0 then
      strip fuel ⟨d.coefficient / 10, d.exponent + 1⟩
    else d

/-- Whether a fraction rounds to `m · 2 ^ q`.  Below a power of two the interval is half as wide
as above it. -/
def roundsTo (m : Nat) (q : Int) (x : Fraction) : Bool :=
  let below := if m = Nat.pow 2 52 ∧ -1074 < q then 1 else 2
  let low := Fraction.scaled (4 * m - below) 2 (q - 2)
  let high := Fraction.scaled (4 * m + 2) 2 (q - 2)
  if m % 2 = 0 then low.le x && x.le high else low.lt x && x.lt high

/-- The decimal on the grid with last place `10 ^ k` that rounds to `m · 2 ^ q` and is nearest to
it, if there is one. -/
def onGrid? (m : Nat) (q k : Int) : Option Decimal :=
  let value := Fraction.scaled m 2 q
  let ratio := value.div (Fraction.scaled 1 10 k)
  let lower := ratio.floor
  let hits (c : Nat) : Bool := roundsTo m q (Fraction.scaled c 10 k)
  if hits lower && hits (lower + 1) then some ⟨ratio.nearest, k⟩
  else if hits lower then some ⟨lower, k⟩
  else if hits (lower + 1) then some ⟨lower + 1, k⟩
  else none

/-- The first hit on the grids with last place `10 ^ k`, `10 ^ (k - 1)`, and so on, over at most
`grids` of them; the last grid is taken as it is. -/
def search (m : Nat) (q : Int) : (grids : Nat) → (k : Int) → Decimal
  | 0, k => ⟨((Fraction.scaled m 2 q).div (Fraction.scaled 1 10 k)).nearest, k⟩
  | grids + 1, k =>
    match onGrid? m q k with
    | some d => d
    | none => search m q grids (k - 1)

/-- The shortest decimal that reads back as `m · 2 ^ q`, for a positive `m`. -/
def shortest (m : Nat) (q : Int) : Decimal :=
  strip 2 (search m q 17 (Fraction.scaled m 2 q).floorLog10)

end Decimal
end Stencil
