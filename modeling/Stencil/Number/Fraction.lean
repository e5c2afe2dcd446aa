/-!
# Exact fractions

Non-negative fractions of natural numbers, for exact comparison and rounding of numbers with a
decimal or a binary exponent.  No fraction is ever reduced, since only the value counts.
-/

namespace Stencil

/-- The fraction `num / den`; the denominator is positive wherever fractions are built. -/
structure Fraction where
  num : Nat
  den : Nat

namespace Fraction

/-- `n · base ^ e` for an exponent of either sign. -/
def scaled (n base : Nat) (e : Int) : Fraction :=
  if 0 ≤ e then ⟨n * base.pow e.toNat, 1⟩ else ⟨n, base.pow (-e).toNat⟩

/-- Whether a fraction is at most another. -/
def le (x y : Fraction) : Bool := decide (x.num * y.den ≤ y.num * x.den)

/-- Whether a fraction is less than another. -/
def lt (x y : Fraction) : Bool := decide (x.num * y.den < y.num * x.den)

/-- The quotient of two fractions. -/
def div (x y : Fraction) : Fraction := ⟨x.num * y.den, x.den * y.num⟩

/-- The greatest natural number that is not above the fraction. -/
def floor (x : Fraction) : Nat := x.num / x.den

/-- The natural number nearest to the fraction; of two, the even one. -/
def nearest (x : Fraction) : Nat :=
  let n := x.num / x.den
  let rest := 2 * (x.num % x.den)
  if rest < x.den then n
  else if x.den < rest then n + 1
  else n + n % 2

/-- The exponent of the greatest power of `base` that is not above a positive fraction, given a
guess that is at most two off. -/
def floorLog (base : Nat) (guess : Int) (x : Fraction) : Int :=
  if (scaled 1 base (guess + 2)).le x then guess + 2
  else if (scaled 1 base (guess + 1)).le x then guess + 1
  else if (scaled 1 base guess).le x then guess
  else if (scaled 1 base (guess - 1)).le x then guess - 1
  else guess - 2

/-- The exponent of the greatest power of two that is not above a positive fraction. -/
def floorLog2 (x : Fraction) : Int := floorLog 2 ((x.num.log2 : Int) - x.den.log2) x

/-- The exponent of the greatest power of ten that is not above a positive fraction. -/
def floorLog10 (x : Fraction) : Int := floorLog 10 (x.floorLog2 * 30103 / 100000) x

end Fraction
end Stencil
