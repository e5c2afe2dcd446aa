import Stencil.Bytes
import Stencil.Number.Fraction

/-!
# Binary floating-point numbers

Numbers of 64 bits with a sign, eleven exponent bits and 52 fraction bits.  The template language
computes nothing with them: they are read, classified and printed, so a number is kept as its bits
and taken apart into an exact `m · 2 ^ q` where its value counts.

Results: `Binary64.decode` takes a number apart, `Binary64.nearest` is the number nearest to a
fraction, with ties to the even neighbour.
-/

namespace Stencil

/-- A floating-point number, given by its bits. -/
structure Binary64 where
  bits : UInt64
deriving DecidableEq

namespace Binary64

/-- The value of a number. -/
inductive Value where
  | nan
  | infinite (negative : Bool)
  | finite (negative : Bool) (m : Nat) (q : Int)

/-- The number taken apart: a finite one is `± m · 2 ^ q` with `m` below 2 to the 53. -/
def decode (x : Binary64) : Value :=
  let n := x.bits.toNat
  let negative := decide (Nat.pow 2 63 ≤ n)
  let exponent : Nat := n / Nat.pow 2 52 % Nat.pow 2 11
  let fraction : Nat := n % Nat.pow 2 52
  if exponent = 2047 then if fraction = 0 then .infinite negative else .nan
  else if exponent = 0 then .finite negative fraction (-1074)
  else .finite negative (Nat.pow 2 52 + fraction) ((exponent : Int) - 1075)

/-- The bits of a number with a sign, a biased exponent and a fraction. -/
def pack (negative : Bool) (exponent fraction : Nat) : Binary64 :=
  ⟨((if negative then Nat.pow 2 63 else 0) + exponent * Nat.pow 2 52 + fraction).toUInt64⟩

/-- Infinity with a sign. -/
def infinity (negative : Bool) : Binary64 := pack negative 2047 0

/-- The value that is no number. -/
def nan : Binary64 := pack false 2047 (Nat.pow 2 51)

/-- Zero with a sign. -/
def zero (negative : Bool) : Binary64 := pack negative 0 0

/-- A width of binary numbers: the bits of a significand, the least exponent of a last place, and
the exponent from which on a number is infinite. -/
structure Width where
  precision : Nat
  least : Int
  limit : Int

/-- Numbers of 64 bits. -/
def double : Width := ⟨53, -1074, 1024⟩

/-- Numbers of 32 bits. -/
def single : Width := ⟨24, -149, 128⟩

/-- The number `± m · 2 ^ q`, where `m` has at most 53 bits and the value is in range. -/
def ofParts (negative : Bool) (m : Nat) (q : Int) : Binary64 :=
  if m = 0 then zero negative
  else
    let shift := min (52 - m.log2) (q + 1074).toNat
    let m := m * Nat.pow 2 shift
    let q := q - shift
    if m < Nat.pow 2 52 then pack negative 0 m
    else pack negative (q + 1075).toNat (m - Nat.pow 2 52)

/-- The number of a given width nearest to a fraction, with ties to the even neighbour. -/
def nearestOf (w : Width) (negative : Bool) (x : Fraction) : Binary64 :=
  if x.num = 0 then zero negative
  else
    let q := max (x.floorLog2 - (w.precision - 1)) w.least
    let m := (x.div (Fraction.scaled 1 2 q)).nearest
    if (Fraction.scaled 1 2 w.limit).le (Fraction.scaled m 2 q) then infinity negative
    else ofParts negative m q

/-- The number nearest to a fraction, with ties to the even neighbour. -/
def nearest (negative : Bool) (x : Fraction) : Binary64 := nearestOf double negative x

/-- The number nearest to an integer. -/
def ofInt (n : Int) : Binary64 := nearest (n < 0) ⟨n.natAbs, 1⟩

/-- A number rounded to 32 bits. -/
def toSingle (x : Binary64) : Binary64 :=
  match x.decode with
  | .finite negative m q => nearestOf single negative (Fraction.scaled m 2 q)
  | _ => x

/-- Whether a number is neither zero nor the value that is no number. -/
def isNonzero (x : Binary64) : Bool :=
  match x.decode with
  | .nan => false
  | .infinite _ => true
  | .finite _ m _ => m != 0

/-- Whether a number is finite. -/
def isFinite (x : Binary64) : Bool :=
  match x.decode with
  | .finite .. => true
  | _ => false

end Binary64
end Stencil
