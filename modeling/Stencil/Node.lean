import Stencil.Text.Escape

/-!
# Nodes

What a template renders to: a forest of elements, texts and trusted markup.  Data may also carry
empty places, which render to nothing, and elements held by reference, which cannot be written.

Results: `Node.textOf` is the text of a forest, and `Node.html` writes a forest as markup.
-/

namespace Stencil

/-- A node of a rendered forest. -/
inductive Node where
  | text (value : Bytes)
  /-- Markup that is written as it is. -/
  | raw (markup : Bytes)
  | element (tag : Bytes) (attributes : List (Bytes × Bytes)) (children : List Node)
  /-- An empty place. -/
  | absent
  /-- An element held by reference. -/
  | reference

instance : Inhabited Node := ⟨.absent⟩

namespace Node

/-- The value of the first attribute with a key, of an element given by its attributes. -/
def attribute? (key : Bytes) (attributes : List (Bytes × Bytes)) : Option Bytes :=
  attributes.lookup key

mutual

/-- The text of a node; trusted markup counts as it is written. -/
def content : Node → Bytes
  | text s => s
  | raw s => s
  | element _ _ children => textOf children
  | absent => []
  | reference => []

/-- The text of a forest. -/
def textOf : List Node → Bytes
  | [] => []
  | n :: rest => content n ++ textOf rest

end

/-- The elements that are written without content and end tag. -/
def voidTags : List Bytes :=
  ["area", "base", "br", "col", "command", "embed", "hr", "img", "input", "keygen", "link", "meta",
   "param", "source", "track", "wbr"].map utf8

/-- An attribute as it is written. -/
def attributeHtml (a : Bytes × Bytes) : Bytes :=
  utf8 " " ++ a.1 ++ utf8 "=\"" ++ Text.escapeHtml a.2 ++ utf8 "\""

mutual

/-- Whether a node can be written: nowhere in it is an element held by reference. -/
def isWritable : Node → Bool
  | element _ _ children => allWritable children
  | reference => false
  | text _ | raw _ | absent => true

/-- Whether a forest can be written. -/
def allWritable : List Node → Bool
  | [] => true
  | n :: rest => isWritable n && allWritable rest

end

mutual

/-- A node as markup. -/
def toHtml : Node → Bytes
  | text s => Text.escapeHtml s
  | raw s => s
  | element tag attributes children =>
    utf8 "<" ++ tag ++ attributes.flatMap attributeHtml ++ utf8 ">" ++
      (if voidTags.contains tag then [] else forestHtml children ++ utf8 "</" ++ tag ++ utf8 ">")
  | absent => []
  | reference => []

/-- A forest as markup. -/
def forestHtml : List Node → Bytes
  | [] => []
  | n :: rest => toHtml n ++ forestHtml rest

end

/-- A forest as markup, when it can be written. -/
def html (nodes : List Node) : Option Bytes :=
  if allWritable nodes then some (forestHtml nodes) else none

end Node
end Stencil
