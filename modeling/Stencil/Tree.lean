import Stencil.Fragment
import Stencil.Markup.Event

/-!
# Template trees

A template is a forest of elements and runs of text, whose names, attribute values and texts are
lists of fragments.

Input: the markup events of the source.

Algorithm: the elements that are still open are kept innermost first, each with the children that it
has so far.  A closing tag closes the innermost open element whatever its name, and one more closing
tag than there are open elements is ignored.  Elements that are still open at the end are closed
there.

In the default mode line breaks and tabs are dropped from literals, blank text is skipped, and blank
literals at the ends of a text with expressions are dropped.
-/

namespace Stencil

/-- A node of a template. -/
inductive Tree where
  | element (span : Span) (name : List Fragment) (attributes : List (Bytes × List Fragment))
      (children : List Tree)
  | text (span : Span) (fragments : List Fragment)

/-- How a template is read: which names are helpers, and whether white space is kept. -/
structure Reading where
  isHelper : Bytes → Bool
  keepWhitespace : Bool

namespace Whitespace

/-- Whether a character is a line break or a tab. -/
def isControl (c : Char) : Bool := c == '\n' || c == '\t' || c == '\r'

/-- A text without line breaks and tabs; stray bytes become replacement characters. -/
def strip (s : Bytes) : Bytes := encodeChars ((shownChars s).filter fun c => !isControl c)

/-- A fragment with its literal stripped, unless nothing is left of it. -/
def stripFragment (f : Fragment) : Option Fragment :=
  match f.mark with
  | .literal s => if (strip s).isEmpty then none else some { f with mark := .literal (strip s) }
  | _ => some f

/-- Fragments with their literals stripped. -/
def stripAll (fs : List Fragment) : List Fragment := fs.filterMap stripFragment

/-- Whether a fragment is a literal of white space only. -/
def isBlank (f : Fragment) : Bool :=
  match f.mark with
  | .literal s => Text.isBlank s
  | _ => false

/-- Fragments without a blank literal at the front, when there are more. -/
def dropFront : List Fragment → List Fragment
  | f :: g :: rest => if isBlank f then g :: rest else f :: g :: rest
  | fs => fs

/-- Fragments without a blank literal at the back, when there are more. -/
def dropBack (fs : List Fragment) : List Fragment := (dropFront fs.reverse).reverse

/-- The fragments of a text stripped, and without blank literals at its ends. -/
def compact (fs : List Fragment) : List Fragment := dropBack (dropFront (stripAll fs))

end Whitespace

namespace Tree

/-- An element that is still open. -/
structure Open where
  span : Span
  name : List Fragment
  attributes : List (Bytes × List Fragment)
  children : List Tree

/-- The element, closed at an offset. -/
def Open.close (e : Open) (stop : Nat) : Tree :=
  .element ⟨e.span.start, stop⟩ e.name e.attributes e.children

/-- A forest under construction: the open elements, innermost first, and the roots so far. -/
structure Builder where
  stack : List Open
  roots : List Tree

namespace Builder

/-- Nothing read yet. -/
def empty : Builder := ⟨[], []⟩

/-- A node added to the innermost open element, or to the roots. -/
def attach (t : Tree) (b : Builder) : Builder :=
  match b.stack with
  | [] => { b with roots := b.roots ++ [t] }
  | e :: stack => { b with stack := { e with children := e.children ++ [t] } :: stack }

/-- The innermost open element closed at an offset. -/
def close (stop : Nat) (b : Builder) : Builder :=
  match b.stack with
  | [] => b
  | e :: stack => attach (e.close stop) { b with stack := stack }

/-- The roots once every open element is closed where its tag ends. -/
def finish (roots : List Tree) : (stack : List Open) → List Tree
  | [] => roots
  | [e] => roots ++ [e.close e.span.stop]
  | e :: outer :: stack =>
    finish roots ({ outer with children := outer.children ++ [e.close e.span.stop] } :: stack)
termination_by stack => stack.length

/-- The fragments of an attribute value. -/
def readAttribute (r : Reading) (span : Span) (a : Markup.Attribute) :
    Except Fault (Bytes × List Fragment) := do
  let value ← Fragment.read r.isHelper (.tag span) a.value
  return (a.key, if r.keepWhitespace then value else Whitespace.stripAll value)

/-- The fragments of a text; none when it is skipped. -/
def readText (r : Reading) (raw : Bytes) (span : Span) : Except Fault (List Fragment) :=
  if !r.keepWhitespace && Text.isBlank raw then .ok []
  else do
    let fragments ← Fragment.read r.isHelper (.text span.start) raw
    return if r.keepWhitespace then fragments else Whitespace.compact fragments

/-- One event. -/
def step (r : Reading) (b : Builder) : Markup.Event → Except Fault Builder
  | .openTag name attributes span => do
    let name ← Fragment.read r.isHelper (.tag span) name
    let attributes ← attributes.mapM (readAttribute r span)
    return { b with stack := ⟨span, name, attributes, []⟩ :: b.stack }
  | .text raw span => do
    let fragments ← readText r raw span
    return if fragments.isEmpty then b else b.attach (.text span fragments)
  | .closeTag span => .ok (b.close span.stop)

end Builder

/-- The forest that events describe. -/
def ofEvents (r : Reading) (events : List Markup.Event) : Except Fault (List Tree) := do
  let b ← events.foldlM (Builder.step r) Builder.empty
  return Builder.finish b.roots b.stack

/-- The forest of a template source. -/
def read (r : Reading) (source : Bytes) : Except Fault (List Tree) :=
  ofEvents r (Markup.events source)

end Tree
end Stencil
