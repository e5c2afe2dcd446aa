import Stencil.Number.Shortest

/-!
# Written numbers

How numbers are written: positional notation without an exponent, and scientific notation with one
digit before the point and a signed exponent of at least two digits.  Both show the digits of the
shortest decimal.
-/

namespace Stencil
namespace Decimal

/-- The digits of a decimal. -/
def digits (d : Decimal) : Bytes := if d.coefficient = 0 then [] else Bytes.decimal d.coefficient

/-- How many digits stand before the point; zero or less when the number is below one. -/
def point (d : Decimal) : Int := d.digits.length + d.exponent

/-- Positional notation. -/
def positional (d : Decimal) : Bytes :=
  let digits := d.digits
  let point := d.point
  let whole :=
    if point ≤ 0 then [Ascii.zero]
    else digits.take point.toNat ++ List.replicate (point.toNat - digits.length) Ascii.zero
  let fraction :=
    if point ≤ 0 then List.replicate (-point).toNat Ascii.zero ++ digits
    else digits.drop point.toNat
  if digits.length ≤ point then whole else if fraction.isEmpty then whole
  else whole ++ Ascii.dot :: fraction

/-- A signed exponent of at least two digits. -/
def exponentText (e : Int) : Bytes :=
  let n := Bytes.decimal e.natAbs
  (if e < 0 then Ascii.minus else Ascii.plus) :: (if n.length < 2 then Ascii.zero :: n else n)

/-- Scientific notation. -/
def scientific (d : Decimal) : Bytes :=
  let digits := d.digits
  let head := digits.take 1
  let tail := digits.drop 1
  head ++ (if tail.isEmpty then [] else Ascii.dot :: tail) ++
    0x65 :: exponentText (d.point - 1)

end Decimal

namespace Binary64

/-- A number written with a given notation for its positive finite values. -/
def write (style : Decimal → Bytes) (x : Binary64) : Bytes :=
  match x.decode with
  | .nan => utf8 "NaN"
  | .infinite negative => utf8 (if negative then "-Inf" else "+Inf")
  | .finite negative m q =>
    let sign := if negative then [Ascii.minus] else []
    if m = 0 then sign ++ [Ascii.zero] else sign ++ style (Decimal.shortest m q)

/-- Positional notation throughout. -/
def positional (x : Binary64) : Bytes := x.write Decimal.positional

/-- Scientific notation for exponents below -4 and from six on, positional notation between. -/
def general (x : Binary64) : Bytes :=
  x.write fun d =>
    let e := d.point - 1
    if e < -4 ∨ 6 ≤ e then d.scientific else d.positional

/-- Positional notation for numbers below 10 to the 21, general notation from there on. -/
def plain (x : Binary64) : Bytes :=
  match x.decode with
  | .finite _ m q =>
    if (Fraction.scaled m 2 q).lt (Fraction.scaled 1 10 21) then x.positional else x.general
  | _ => x.general

end Binary64
end Stencil
