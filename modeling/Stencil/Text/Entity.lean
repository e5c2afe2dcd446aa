import Stencil.Text.EntityTable

/-!
# Character references

Decoding of `&name;`, `&#decimal;` and `&#xhex;` in markup.  A reference is decoded wherever it
occurs in text.  In an attribute value a name without its semicolon is left alone when a letter, a
digit or an equals sign follows.

Algorithm: `Entity.reference` reads the reference behind an ampersand and says what it stands for
and how long it is; `Entity.decode` walks over the text.
-/

namespace Stencil
namespace Entity

/-- Where a text stands; attribute values have a stricter rule for names without a semicolon. -/
inductive Place where
  | text
  | attribute
deriving DecidableEq

/-- What a name, with its semicolon if it has one, stands for. -/
def named? (name : Bytes) : Option Bytes :=
  match name with
  | [] => none
  | b :: _ =>
    ((namesBeginning (Char.ofNat b.toNat)).find? fun entry => entry.1 == name).map fun entry =>
      entry.2.flatMap fun n => String.utf8EncodeChar (Char.ofNat n)

/-- The characters that the code points from 128 to 159 stand for. -/
def windows : List Nat :=
  [0x20ac, 0x81, 0x201a, 0x192, 0x201e, 0x2026, 0x2020, 0x2021, 0x2c6, 0x2030, 0x160, 0x2039, 0x152,
   0x8d, 0x17d, 0x8f, 0x90, 0x2018, 0x2019, 0x201c, 0x201d, 0x2022, 0x2013, 0x2014, 0x2dc, 0x2122,
   0x161, 0x203a, 0x153, 0x9d, 0x17e, 0x178]

/-- What a numeric reference stands for.  The number counts modulo 2 to the 32; a number that is no
character stands for the replacement character. -/
def numbered (n : Nat) : Bytes :=
  let n := n % Nat.pow 2 32
  let n := if 0x80 ≤ n then (windows[n - 0x80]?).getD n else n
  if n = 0 ∨ ¬ n.isValidChar then utf8 "�" else String.utf8EncodeChar (Char.ofNat n)

/-- Whether a byte can be part of a name. -/
def isNameByte (b : UInt8) : Bool := Ascii.isLetter b || Ascii.isDigit b

/-- The length of a numeric reference: its digits and a semicolon if one follows, behind `skip`
bytes of introduction. -/
def numericLength (skip : Nat) (digits rest : Bytes) : Nat :=
  skip + digits.length + (if rest.head? = some Ascii.semicolon then 1 else 0)

/-- The numeric reference in `s`, which follows an ampersand and a number sign: what it stands for
and its length from the ampersand on.  At least two bytes have to follow the number sign, and the
reference has to be longer than three bytes. -/
def numeric? (s : Bytes) : Option (Bytes × Nat) :=
  if s.length < 2 then none
  else
    let hex := s.head? = some 0x78 ∨ s.head? = some 0x58
    let body := if hex then s.drop 1 else s
    let isDigit (b : UInt8) : Bool := if hex then (Ascii.hexValue? b).isSome else Ascii.isDigit b
    let digits := body.takeWhile isDigit
    let length := numericLength (if hex then 3 else 2) digits (body.drop digits.length)
    if length ≤ 3 then none
    else
      let value := digits.foldl
        (fun n b => n * (if hex then 16 else 10) + (Ascii.hexValue? b).getD 0) 0
      some (numbered value, length)

/-- The longest beginning of `name`, of at most `n` and at least two bytes, that is a name by
itself: what it stands for and its length. -/
def shortened? (name : Bytes) : Nat → Option (Bytes × Nat)
  | 0 => none
  | 1 => none
  | n + 2 =>
    match named? (name.take (n + 2)) with
    | some text => some (text, n + 2)
    | none => shortened? name (n + 1)

/-- The length of the longest name that needs no semicolon. -/
def longestBare : Nat := 6

/-- The reference that follows an ampersand: what it stands for and how many bytes behind the
ampersand it takes. -/
def reference? (place : Place) (s : Bytes) : Option (Bytes × Nat) :=
  match s with
  | [] => none
  | Ascii.hash :: rest => (numeric? rest).map fun (text, length) => (text, length - 1)
  | _ =>
    let letters := s.takeWhile isNameByte
    let rest := s.drop letters.length
    let closed := rest.head? = some Ascii.semicolon
    let name := if closed then letters ++ [Ascii.semicolon] else letters
    if place = .attribute ∧ ¬ closed ∧ rest.head? = some Ascii.equals then none
    else match named? name with
      | some text => some (text, name.length)
      | none =>
        if place = .text then shortened? name (min (name.length - 1) longestBare) else none

/-- A text with its references decoded, after skipping `skip` bytes that belong to one. -/
def decodeFrom (place : Place) : (skip : Nat) → Bytes → Bytes
  | _, [] => []
  | n + 1, _ :: rest => decodeFrom place n rest
  | 0, b :: rest =>
    if b = Ascii.ampersand then
      match reference? place rest with
      | some (text, n) => text ++ decodeFrom place n rest
      | none => b :: decodeFrom place 0 rest
    else b :: decodeFrom place 0 rest

/-- A text with its references decoded. -/
def decode (place : Place) (s : Bytes) : Bytes := decodeFrom place 0 s

end Entity
end Stencil
