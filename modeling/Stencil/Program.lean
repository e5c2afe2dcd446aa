import Stencil.Argument

/-!
# Programs

A program is what a template is compiled to: a list of steps, each of which gives a list of nodes.
-/

namespace Stencil

/-- A constant of a program: a literal of its template, or an integer that no template writes but a
program built by hand may hold. -/
inductive Constant where
  | written (l : Literal)
  | tally (n : Int64)
deriving DecidableEq

/-- A value that a program looks up or holds. -/
abbrev Input := Operand Path Constant

/-- One step of a program. -/
inductive Op where
  /-- Literal text. -/
  | literal (value : Bytes)
  /-- The value that a path leads to. -/
  | interpolation (path : Path)
  /-- An element; its name and attribute values are the texts of what their steps give. -/
  | element (name : List Op) (attributes : List (Bytes × List Op)) (children : List Op)
  /-- A call of a helper with positional and named arguments, a body, and the section behind `else`
  if there is one.  Synthetic blocks stand for helper calls outside blocks. -/
  | block (name : Bytes) (arguments : List Input) (named : List (Bytes × Input))
      (body : List Op) (inverse : Option (List Op)) (synthetic : Bool)
  /-- A call of a partial in a given or in the current context. -/
  | inclusion (name : Bytes) (context : Option Path) (parameters : List (Bytes × Input))
  /-- A step of no known kind, which no template is compiled to. -/
  | unknown

instance : Inhabited Op := ⟨.unknown⟩

/-- A compiled template. -/
structure Program where
  name : Bytes
  ops : List Op

mutual

/-- Whether a step and everything below it is of a known kind. -/
def Op.isKnown : Op → Bool
  | .element name attributes children =>
    Op.allKnown name && Op.attributesKnown attributes && Op.allKnown children
  | .block _ _ _ body inverse _ => Op.allKnown body && Op.inverseKnown inverse
  | .unknown => false
  | .literal _ | .interpolation _ | .inclusion .. => true

/-- Whether all steps are of a known kind. -/
def Op.allKnown : List Op → Bool
  | [] => true
  | op :: rest => op.isKnown && Op.allKnown rest

/-- Whether all steps of attribute values are of a known kind. -/
def Op.attributesKnown : List (Bytes × List Op) → Bool
  | [] => true
  | (_, value) :: rest => Op.allKnown value && Op.attributesKnown rest

/-- Whether all steps behind an `else` are of a known kind. -/
def Op.inverseKnown : Option (List Op) → Bool
  | none => true
  | some ops => Op.allKnown ops

end

end Stencil
