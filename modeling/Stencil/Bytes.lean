/-!
# Byte strings

Template sources, names and data may hold any bytes, so texts are lists of bytes; positions in a
source are numbers of bytes.  This module has the operations on byte strings that the rest of the
library uses: searching, splitting, decimal numerals and the order of bytes.
-/

namespace Stencil

/-- A byte string. -/
abbrev Bytes := List UInt8

/-- The UTF-8 encoding of a text. -/
def utf8 (s : String) : Bytes := s.toList.flatMap String.utf8EncodeChar

namespace Ascii

@[match_pattern] abbrev tab : UInt8 := 0x09
@[match_pattern] abbrev newline : UInt8 := 0x0a
@[match_pattern] abbrev formFeed : UInt8 := 0x0c
@[match_pattern] abbrev carriageReturn : UInt8 := 0x0d
@[match_pattern] abbrev blank : UInt8 := 0x20
@[match_pattern] abbrev bang : UInt8 := 0x21
@[match_pattern] abbrev quote : UInt8 := 0x22
@[match_pattern] abbrev hash : UInt8 := 0x23
@[match_pattern] abbrev ampersand : UInt8 := 0x26
@[match_pattern] abbrev apostrophe : UInt8 := 0x27
@[match_pattern] abbrev plus : UInt8 := 0x2b
@[match_pattern] abbrev comma : UInt8 := 0x2c
@[match_pattern] abbrev minus : UInt8 := 0x2d
@[match_pattern] abbrev dot : UInt8 := 0x2e
@[match_pattern] abbrev slash : UInt8 := 0x2f
@[match_pattern] abbrev zero : UInt8 := 0x30
@[match_pattern] abbrev colon : UInt8 := 0x3a
@[match_pattern] abbrev semicolon : UInt8 := 0x3b
@[match_pattern] abbrev less : UInt8 := 0x3c
@[match_pattern] abbrev equals : UInt8 := 0x3d
@[match_pattern] abbrev greater : UInt8 := 0x3e
@[match_pattern] abbrev question : UInt8 := 0x3f
@[match_pattern] abbrev atSign : UInt8 := 0x40
@[match_pattern] abbrev backslash : UInt8 := 0x5c
@[match_pattern] abbrev underscore : UInt8 := 0x5f
@[match_pattern] abbrev lbracket : UInt8 := 0x5b
@[match_pattern] abbrev rbracket : UInt8 := 0x5d
@[match_pattern] abbrev lbrace : UInt8 := 0x7b
@[match_pattern] abbrev rbrace : UInt8 := 0x7d

/-- Whether a byte is an ASCII letter. -/
def isLetter (b : UInt8) : Bool :=
  (decide (0x61 ≤ b) && decide (b ≤ 0x7a)) || (decide (0x41 ≤ b) && decide (b ≤ 0x5a))

/-- Whether a byte is an ASCII digit. -/
def isDigit (b : UInt8) : Bool := decide (0x30 ≤ b) && decide (b ≤ 0x39)

/-- The lower-case form of an ASCII letter; other bytes are their own. -/
def toLower (b : UInt8) : UInt8 := if 0x41 ≤ b ∧ b ≤ 0x5a then b + 0x20 else b

/-- The upper-case form of an ASCII letter; other bytes are their own. -/
def toUpper (b : UInt8) : UInt8 := if 0x61 ≤ b ∧ b ≤ 0x7a then b - 0x20 else b

/-- The value of a decimal digit. -/
def digitValue (b : UInt8) : Nat := b.toNat - 0x30

/-- The value of a hexadecimal digit of either case. -/
def hexValue? (b : UInt8) : Option Nat :=
  if isDigit b then some (b.toNat - 0x30)
  else if 0x61 ≤ b ∧ b ≤ 0x66 then some (b.toNat - 0x57)
  else if 0x41 ≤ b ∧ b ≤ 0x46 then some (b.toNat - 0x37)
  else none

/-- The lower-case hexadecimal digit of a number below sixteen. -/
def hexDigit (n : Nat) : UInt8 := (if n < 10 then 0x30 + n else 0x57 + n).toUInt8

end Ascii

namespace Bytes

/-- What follows `p` in `s`, when `s` begins with `p`. -/
def after? : (p s : Bytes) → Option Bytes
  | [], s => some s
  | _ :: _, [] => none
  | a :: p, b :: s => if a = b then after? p s else none

/-- Whether `s` begins with `p`. -/
def startsWith (p s : Bytes) : Bool := (after? p s).isSome

/-- Whether `s` ends with `p`. -/
def endsWith (p s : Bytes) : Bool := startsWith p.reverse s.reverse

/-- `s` without `p` at its end, when it ends so. -/
def before? (p s : Bytes) : Option Bytes := (after? p.reverse s.reverse).map List.reverse

/-- The parts of `s` before and after the first occurrence of `p`. -/
def cut? (p : Bytes) : Bytes → Option (Bytes × Bytes)
  | [] => if p.isEmpty then some ([], []) else none
  | b :: s =>
    match after? p (b :: s) with
    | some rest => some ([], rest)
    | none => (cut? p s).map fun (l, r) => (b :: l, r)

/-- Whether `p` occurs in `s`. -/
def occurs (p s : Bytes) : Bool := (cut? p s).isSome

/-- The pieces of `s` between the occurrences of a byte; always at least one. -/
def splitOn (sep : UInt8) : Bytes → List Bytes
  | [] => [[]]
  | b :: s =>
    if b = sep then [] :: splitOn sep s
    else match splitOn sep s with
      | [] => [[b]]
      | piece :: pieces => (b :: piece) :: pieces

/-- The texts one after the other with `sep` in between. -/
def join (sep : Bytes) : List Bytes → Bytes
  | [] => []
  | [s] => s
  | s :: t :: rest => s ++ sep ++ join sep (t :: rest)

/-- The bytes from offset `lo` up to offset `hi`. -/
def slice (s : Bytes) (lo hi : Nat) : Bytes := (s.drop lo).take (hi - lo)

/-- The order of byte strings: byte by byte, a proper beginning first. -/
def le : Bytes → Bytes → Bool
  | [], _ => true
  | _ :: _, [] => false
  | a :: s, b :: t => decide (a < b) || (a == b && le s t)

/-- The decimal numeral of a number. -/
def decimal (n : Nat) : Bytes := (Nat.toDigits 10 n).map Char.toUInt8

/-- The decimal numeral of an integer. -/
def decimalInt : Int → Bytes
  | .ofNat n => decimal n
  | .negSucc n => Ascii.minus :: decimal (n + 1)

/-- A number as exactly `width` hexadecimal digits. -/
def hex : (width n : Nat) → Bytes
  | 0, _ => []
  | w + 1, n => hex w (n / 16) ++ [Ascii.hexDigit (n % 16)]

/-- The number that a text of decimal digits stands for. -/
def natOfDigits (s : Bytes) : Nat := s.foldl (fun n b => n * 10 + Ascii.digitValue b) 0

/-- The integer of at most 64 bits that a text stands for: an optional sign and decimal digits. -/
def int64? (s : Bytes) : Option Int64 :=
  let read (negative : Bool) (digits : Bytes) : Option Int64 :=
    if digits.isEmpty || !digits.all Ascii.isDigit then none
    else
      let n := natOfDigits digits
      if negative then if n ≤ Nat.pow 2 63 then some (Int64.ofInt (-(n : Int))) else none
      else if n < Nat.pow 2 63 then some (Int64.ofInt n) else none
  match s with
  | Ascii.plus :: rest => read false rest
  | Ascii.minus :: rest => read true rest
  | _ => read false s

end Bytes
end Stencil
