import Stencil.Text.Glyph

/-!
# White space

White space is the set of characters with the Unicode property of that name.  `Text.trim` removes
it at both ends of a byte string, and `Text.isBlank` says that nothing else is there.
-/

namespace Stencil
namespace Text

/-- Whether a character is white space. -/
def isSpace (c : Char) : Bool :=
  let n := c.toNat
  (decide (0x09 ≤ n) && decide (n ≤ 0x0d)) || n == 0x20 || n == 0x85 || n == 0xa0 || n == 0x1680 ||
    (decide (0x2000 ≤ n) && decide (n ≤ 0x200a)) || n == 0x2028 || n == 0x2029 || n == 0x202f ||
    n == 0x205f || n == 0x3000

/-- Whether a glyph is white space; a stray byte never is. -/
def isSpaceGlyph : Glyph → Bool
  | .char c => isSpace c
  | .stray _ => false

/-- Whether a byte string holds nothing but white space. -/
def isBlank (s : Bytes) : Bool := (glyphs s).all isSpaceGlyph

/-- A byte string without the white space at its ends. -/
def trim (s : Bytes) : Bytes :=
  unread (((glyphs s).dropWhile isSpaceGlyph).reverse.dropWhile isSpaceGlyph).reverse

end Text
end Stencil
