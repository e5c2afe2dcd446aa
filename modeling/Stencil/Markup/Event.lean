import Stencil.Markup.Token
import Stencil.Span

/-!
# Markup events

What a tree builder sees of a source: tags that open, runs of text as they stand in the source, and
tags that close, in document order and each with the span of its token.

A tag that closes itself and a tag of a void element opens and closes at once.  The name of a tag is
in lower case, unless it holds an expression, whose paths keep their case.
-/

namespace Stencil
namespace Markup

/-- One step of a document. -/
inductive Event where
  | openTag (name : Bytes) (attributes : List Attribute) (span : Span)
  | text (raw : Bytes) (span : Span)
  | closeTag (span : Span)

/-- The elements that have no content and no end tag. -/
def voidNames : List Bytes :=
  ["area", "base", "br", "col", "embed", "hr", "img", "input", "link", "meta", "source", "track",
   "wbr"].map utf8

/-- The two braces that open an expression. -/
def opener : Bytes := [Ascii.lbrace, Ascii.lbrace]

/-- The name that a tag is known by. -/
def tagName (written : Bytes) : Bytes :=
  if Bytes.occurs opener written then written else written.map Ascii.toLower

/-- The events of a token with the given source at an offset. -/
def Token.events (t : Token) (source : Bytes) (offset : Nat) : List Event :=
  let span : Span := ⟨offset, offset + source.length⟩
  match t with
  | .text => [.text source span]
  | .startTag name attributes selfClosing =>
    let opened := .openTag (tagName name) (attributes.map Attribute.meaning) span
    if selfClosing || voidNames.contains (name.map Ascii.toLower) then
      [opened, .closeTag (Span.point span.stop)]
    else [opened]
  | .endTag => [.closeTag span]
  | .skipped => []

/-- The events of tokens that begin at an offset. -/
def eventsFrom (offset : Nat) : List (Token × Bytes) → List Event
  | [] => []
  | (t, source) :: rest => t.events source offset ++ eventsFrom (offset + source.length) rest

/-- The events of a source. -/
def events (source : Bytes) : List Event := eventsFrom 0 (tokens none source)

end Markup
end Stencil
