import Stencil.Program

/-!
# Emitted code

The expressions that a program is emitted as.  They call the building blocks of rendering: paths,
values, node lists, and functions for the sections of blocks.

Result: `Op.code` gives the expression of a step.  A single step stands for itself, several are put
in a sequence, and a name or attribute value that is a single literal is written as a text.
-/

namespace Stencil

/-- An expression for a path. -/
inductive PathCode where
  | this
  | dotted (segments : List Bytes)
  | metadata (name : Bytes) (tail : List Bytes)
  | up (hops : Nat) (inner : PathCode)
  | raw (inner : PathCode)
deriving DecidableEq

/-- An expression for a value. -/
inductive ValueCode where
  | lookup (path : PathCode)
  | null
  | text (s : Bytes)
  | bool (b : Bool)
  | int (n : Int64)
  | float (x : Binary64)
deriving DecidableEq

mutual

/-- An expression for a list of nodes. -/
inductive Code where
  | nothing
  | text (s : Bytes)
  | interpolation (path : PathCode)
  | element (tag : TextCode) (attributes : List (Bytes × TextCode)) (children : Code)
  | block (name : Bytes) (arguments : List ValueCode) (named : List (Bytes × ValueCode))
      (body : Code) (inverse : Option Code)
  | inclusion (name : Bytes) (context : Option PathCode) (parameters : List (Bytes × ValueCode))
  | sequence (parts : List Code)

/-- An expression for a text. -/
inductive TextCode where
  | literal (s : Bytes)
  | flattened (code : Code)

end

/-- The expression of a path. -/
def Path.code (p : Path) : PathCode :=
  let target := match p.metadata with
    | some name => PathCode.metadata name p.segments
    | none => if p.segments.isEmpty then .this else .dotted p.segments
  let climbed := if 0 < p.hops then PathCode.up p.hops.toNat target else target
  if p.trusted then .raw climbed else climbed

/-- The expression of a literal. -/
def Literal.code : Literal → ValueCode
  | text s => .text s
  | int n => .int n
  | float x => .float x
  | bool b => .bool b
  | null => .null

/-- The expression of a constant; an integer that no template writes is spelled as text. -/
def Constant.code : Constant → ValueCode
  | written l => l.code
  | tally n => .text (Bytes.decimalInt n.toInt)

/-- The expression of an operand. -/
def Operand.code : Input → ValueCode
  | .path p => .lookup p.code
  | .literal c => c.code

/-- The expressions of named operands. -/
def namedCode (named : List (Bytes × Input)) : List (Bytes × ValueCode) :=
  named.map fun a => (a.1, a.2.code)

/-- The expression of a sequence, given the expressions of its steps. -/
def Code.ofParts : List Code → Code
  | [] => .nothing
  | [c] => c
  | cs => .sequence cs

/-- The expression of a text, given its steps and the expression of these. -/
def TextCode.ofOps (ops : List Op) (code : Code) : TextCode :=
  match ops with
  | [] => .literal []
  | [.literal s] => .literal s
  | _ => .flattened code

mutual

/-- The expression of a step. -/
def Op.code : Op → Code
  | .literal s => .text s
  | .interpolation p => .interpolation p.code
  | .element name attributes children =>
    .element (TextCode.ofOps name (.ofParts (Op.codes name))) (Op.attributeCodes attributes)
      (.ofParts (Op.codes children))
  | .block name arguments named body inverse _ =>
    .block name (arguments.map Operand.code) (namedCode named) (.ofParts (Op.codes body))
      (Op.inverseCode inverse)
  | .inclusion name context parameters =>
    .inclusion name (context.map Path.code) (namedCode parameters)
  | .unknown => .nothing

/-- The expressions of steps. -/
def Op.codes : List Op → List Code
  | [] => []
  | op :: rest => op.code :: Op.codes rest

/-- The expressions of attribute values. -/
def Op.attributeCodes : List (Bytes × List Op) → List (Bytes × TextCode)
  | [] => []
  | (key, ops) :: rest =>
    (key, TextCode.ofOps ops (.ofParts (Op.codes ops))) :: Op.attributeCodes rest

/-- The expression of the section behind an `else`. -/
def Op.inverseCode : Option (List Op) → Option Code
  | none => none
  | some ops => some (.ofParts (Op.codes ops))

end

end Stencil
