import Stencil.Number.Binary64

/-!
# Reading numbers

Numerals for floating-point numbers: an optional sign, decimal digits with an optional point, and
an optional exponent to base ten behind `e`; or, behind `0x`, hexadecimal digits with an optional
point and a mandatory exponent to base two behind `p`.  Digits may be grouped by single underscores
that stand between digits.

Result: `Binary64.ofNumeral?`, the nearest number, or nothing when the text is no numeral or the
number is too large to be finite.
-/

namespace Stencil
namespace Numeral

/-- The significand of a numeral: the number that its digits write and how many of them stand
behind the point. -/
structure Significand where
  value : Nat
  places : Nat
  anyDigit : Bool
  rest : Bytes

/-- Reads digits of a base, underscores and at most one point. -/
def significand (base : Nat) (value places : Nat) (point anyDigit : Bool) : Bytes → Significand
  | [] => ⟨value, places, anyDigit, []⟩
  | b :: rest =>
    if b = Ascii.underscore then significand base value places point anyDigit rest
    else if b = Ascii.dot then
      if point then ⟨value, places, anyDigit, b :: rest⟩
      else significand base value places true anyDigit rest
    else match Ascii.hexValue? b with
      | some d =>
        if d < base then
          significand base (value * base + d) (if point then places + 1 else places) point true rest
        else ⟨value, places, anyDigit, b :: rest⟩
      | none => ⟨value, places, anyDigit, b :: rest⟩

/-- The exponent that decimal digits and underscores write.  Once it has five digits it no longer
grows. -/
def exponentValue (s : Bytes) : Nat :=
  s.foldl (fun e b =>
    if b = Ascii.underscore ∨ 10000 ≤ e then e else e * 10 + Ascii.digitValue b) 0

/-- The exponent behind its mark: a sign, a digit, and then digits and underscores to the end. -/
def exponent? (s : Bytes) : Option Int :=
  let read (digits : Bytes) : Option Nat :=
    match digits with
    | [] => none
    | b :: _ =>
      if Ascii.isDigit b && digits.all (fun c => Ascii.isDigit c || c == Ascii.underscore) then
        some (exponentValue digits)
      else none
  match s with
  | Ascii.plus :: rest => (read rest).map Int.ofNat
  | Ascii.minus :: rest => (read rest).map fun n => -(n : Int)
  | _ => (read s).map Int.ofNat

/-- What the last byte was when underscores are checked. -/
inductive Seen where
  | start
  | digit
  | underscore
  | other
deriving DecidableEq

/-- Whether every underscore stands between digits. -/
def grouped (isDigit : UInt8 → Bool) : Seen → Bytes → Bool
  | seen, [] => seen ≠ .underscore
  | seen, b :: rest =>
    if isDigit b then grouped isDigit .digit rest
    else if b = Ascii.underscore then seen == .digit && grouped isDigit .underscore rest
    else seen ≠ .underscore && grouped isDigit .other rest

/-- The fraction that an unsigned numeral writes. -/
def fraction? (s : Bytes) : Option Fraction :=
  match s with
  | 0x30 :: x :: body =>
    if Ascii.toLower x = 0x78 ∧ ¬ body.isEmpty then
      let sig := significand 16 0 0 false false body
      let isHex (b : UInt8) : Bool := (Ascii.hexValue? b).isSome
      match sig.rest with
      | p :: rest =>
        if sig.anyDigit ∧ Ascii.toLower p = 0x70 ∧ grouped isHex .digit body then
          (exponent? rest).map fun e => Fraction.scaled sig.value 2 (e - 4 * sig.places)
        else none
      | [] => none
    else decimal? s
  | _ => decimal? s
where
  /-- The fraction that a decimal numeral writes.  Far out of range the value is cut short. -/
  decimal? (s : Bytes) : Option Fraction :=
    let sig := significand 10 0 0 false false s
    let value (e : Int) : Fraction :=
      let e := e - sig.places
      let size := (sig.value.log2 : Int) * 30103 / 100000 + e
      if 400 < size then Fraction.scaled sig.value 10 400
      else if size < -400 then ⟨0, 1⟩
      else Fraction.scaled sig.value 10 e
    if ¬ sig.anyDigit ∨ ¬ grouped Ascii.isDigit .start s then none
    else match sig.rest with
      | [] => some (value 0)
      | e :: rest => if Ascii.toLower e = 0x65 then (exponent? rest).map value else none

end Numeral

/-- The finite number nearest to what a numeral writes. -/
def Binary64.ofNumeral? (s : Bytes) : Option Binary64 :=
  let (negative, body) :=
    match s with
    | Ascii.plus :: rest => (false, rest)
    | Ascii.minus :: rest => (true, rest)
    | _ => (false, s)
  match Numeral.fraction? body with
  | some x =>
    let number := Binary64.nearest negative x
    if number.isFinite then some number else none
  | none => none

end Stencil
