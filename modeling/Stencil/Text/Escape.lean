import Stencil.Bytes

/-!
# Escaping for HTML

The characters with a meaning in markup are written as character references, and a NUL byte as the
replacement character.  The result can stand as text and between double quotes.
-/

namespace Stencil
namespace Text

/-- How one byte of text stands in markup. -/
def escapeByte (b : UInt8) : Bytes :=
  if b = 0 then utf8 "�"
  else if b = Ascii.quote then utf8 "&#34;"
  else if b = Ascii.apostrophe then utf8 "&#39;"
  else if b = Ascii.ampersand then utf8 "&amp;"
  else if b = Ascii.less then utf8 "&lt;"
  else if b = Ascii.greater then utf8 "&gt;"
  else [b]

/-- A text as it stands in markup. -/
def escapeHtml (s : Bytes) : Bytes := s.flatMap escapeByte

end Text
end Stencil
