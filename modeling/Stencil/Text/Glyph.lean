import Stencil.Bytes

/-!
# Reading UTF-8

A byte string is read as a list of glyphs: the characters that its well-formed parts encode, and
the stray bytes that belong to no well-formed character.

Algorithm: `Glyph.head` reads the glyph at the front, and `glyphs` goes on behind it.  A sequence
that breaks off or is out of range leaves its first byte stray, and reading resumes at the next
byte.
-/

namespace Stencil

/-- A character, or a byte that is no part of one. -/
inductive Glyph where
  | char (c : Char)
  | stray (b : UInt8)
deriving DecidableEq

namespace Glyph

/-- The bytes that a glyph was read from. -/
def bytes : Glyph → Bytes
  | char c => String.utf8EncodeChar c
  | stray b => [b]

/-- The character that stands for a glyph: a stray byte is shown as the replacement character. -/
def shown : Glyph → Char
  | char c => c
  | stray _ => '�'

/-- For a byte that begins a longer sequence: how many bytes follow it, and the range in which the
first of these must lie. -/
def lead (b : UInt8) : Option (Nat × UInt8 × UInt8) :=
  if b < 0xc2 then none
  else if b < 0xe0 then some (1, 0x80, 0xbf)
  else if b = 0xe0 then some (2, 0xa0, 0xbf)
  else if b = 0xed then some (2, 0x80, 0x9f)
  else if b < 0xf0 then some (2, 0x80, 0xbf)
  else if b = 0xf0 then some (3, 0x90, 0xbf)
  else if b < 0xf4 then some (3, 0x80, 0xbf)
  else if b = 0xf4 then some (3, 0x80, 0x8f)
  else none

/-- Whether a byte may stand inside a sequence. -/
def continues (b : UInt8) : Bool := decide (0x80 ≤ b) && decide (b ≤ 0xbf)

/-- The six bits that a byte inside a sequence contributes. -/
def payload (b : UInt8) : Nat := b.toNat % 64

/-- The glyph at the front of `b :: rest`. -/
def head (b : UInt8) (rest : Bytes) : Glyph :=
  if b < 0x80 then char (Char.ofNat b.toNat)
  else match lead b, rest with
    | some (1, lo, hi), b₁ :: _ =>
      if lo ≤ b₁ ∧ b₁ ≤ hi then char (Char.ofNat (b.toNat % 32 * 64 + payload b₁)) else stray b
    | some (2, lo, hi), b₁ :: b₂ :: _ =>
      if lo ≤ b₁ ∧ b₁ ≤ hi ∧ continues b₂ then
        char (Char.ofNat ((b.toNat % 16 * 64 + payload b₁) * 64 + payload b₂))
      else stray b
    | some (3, lo, hi), b₁ :: b₂ :: b₃ :: _ =>
      if lo ≤ b₁ ∧ b₁ ≤ hi ∧ continues b₂ ∧ continues b₃ then
        char (Char.ofNat (((b.toNat % 8 * 64 + payload b₁) * 64 + payload b₂) * 64 + payload b₃))
      else stray b
    | _, _ => stray b

end Glyph

/-- The glyphs of a byte string whose first `skip` bytes belong to a glyph already read. -/
def glyphsFrom : (skip : Nat) → Bytes → List Glyph
  | _, [] => []
  | n + 1, _ :: rest => glyphsFrom n rest
  | 0, b :: rest =>
    let g := Glyph.head b rest
    g :: glyphsFrom (g.bytes.length - 1) rest

/-- The glyphs of a byte string. -/
def glyphs (s : Bytes) : List Glyph := glyphsFrom 0 s

/-- The bytes that glyphs were read from. -/
def unread (gs : List Glyph) : Bytes := gs.flatMap Glyph.bytes

/-- Whether a byte string is well-formed UTF-8. -/
def isUtf8 (s : Bytes) : Bool :=
  (glyphs s).all fun
    | .char _ => true
    | .stray _ => false

/-- The characters of a byte string; a stray byte is shown as the replacement character. -/
def shownChars (s : Bytes) : List Char := (glyphs s).map Glyph.shown

/-- The UTF-8 encoding of characters. -/
def encodeChars (cs : List Char) : Bytes := cs.flatMap String.utf8EncodeChar

end Stencil
