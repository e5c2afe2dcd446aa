import Stencil.File.Name
import Stencil.Text.Glyph
import Stencil.Text.Letter
import Stencil.Text.Uppercase

/-!
# Names in emitted code

Which texts are identifiers of the language that programs are emitted in, and the function that a
template file is emitted as.
-/

namespace Stencil
namespace Identifier

/-- The words that are no identifiers. -/
def keywords : List Bytes :=
  ["break", "case", "chan", "const", "continue", "default", "defer", "else", "fallthrough", "for",
   "func", "go", "goto", "if", "import", "interface", "map", "package", "range", "return", "select",
   "struct", "switch", "type", "var"].map utf8

/-- Whether a character may begin an identifier. -/
def isStart (c : Char) : Bool := Text.isLetter c || c == '_'

/-- Whether a text is an identifier: letters, underscores and digits, no digit first, and no
keyword. -/
def isValid (name : Bytes) : Bool :=
  match shownChars name with
  | [] => false
  | c :: rest =>
    isStart c && rest.all (fun c => isStart c || Text.isDigit c) && !keywords.contains name

/-- The letters and digits of a text, where the first one of each run is in upper case; `fresh` says
that a run begins. -/
def capitalize : (fresh : Bool) → List Char → List Char
  | _, [] => []
  | fresh, c :: rest =>
    if Text.isLetter c || Text.isDigit c then
      (if fresh then Text.toUpper c else c) :: capitalize false rest
    else capitalize true rest

/-- A file name without what follows its first dot; a name with a dot at its front is kept whole. -/
def stem (base : Bytes) : Bytes :=
  if base.head? = some Ascii.dot then base else base.takeWhile (· != Ascii.dot)

/-- The name of the function for the template in a file: the parts of the file's base name, each
capitalized.  A name that would be empty or begin with a digit has a word in front. -/
def ofFile (path : Bytes) : Bytes :=
  let name := capitalize true (shownChars (stem (FileName.base path)))
  match name with
  | [] => utf8 "Template"
  | c :: _ => if Text.isDigit c then utf8 "Template" ++ encodeChars name else encodeChars name

end Identifier
end Stencil
