import Stencil.Code.Expr
import Stencil.Render

/-!
# The meaning of emitted code

What emitted code renders when it is run: calls are evaluated from left to right, functions are
closures, and constants are exact numbers before they are converted, so that no constant is a
negative zero.
-/

namespace Stencil

/-- The path that an expression computes. -/
def PathCode.path : PathCode → Path
  | this => {}
  | dotted segments => { segments := segments }
  | metadata name tail => { metadata := some name, segments := tail }
  | up hops inner => inner.path.up hops
  | raw inner => inner.path.trust

/-- The value that an expression computes in contexts. -/
def ValueCode.value (s : Scope) : ValueCode → Value
  | lookup path => s.lookup path.path
  | null => .null
  | text t => .text t
  | bool b => .bool b
  | int n => .int n
  | float x => .float (if x = .zero true then .zero false else x)

/-- The values of named expressions. -/
def namedMeanings (s : Scope) (named : List (Bytes × ValueCode)) : List (Bytes × Value) :=
  named.map fun a => (a.1, a.2.value s)

mutual

/-- What a node expression renders. -/
def Code.render (l : Linkage) : Code → Render
  | .nothing => Render.nothing
  | .text s => fun _ r => ([.text s], r)
  | .interpolation path => fun s r => ((s.lookup path.path).display, r)
  | .element tag attributes children => fun s r =>
    let (name, r) := TextCode.render l tag s r
    let (as, r) := Code.renderAttributes l attributes s r
    let (ns, r) := Code.render l children s r
    ([.element name as ns], r)
  | .block name arguments named body inverse =>
    Render.block l name (fun s => ⟨arguments.map (ValueCode.value s), namedMeanings s named⟩)
      (Code.render l body) (Code.renderInverse l inverse)
  | .inclusion name context parameters => fun s r =>
    Render.inclusion l name (context.elim s.data fun path => s.lookup path.path)
      (namedMeanings s parameters) r
  | .sequence parts => Code.renderAll l parts

/-- What node expressions render one after the other. -/
def Code.renderAll (l : Linkage) : List Code → Render
  | [] => Render.nothing
  | c :: rest => Render.append (Code.render l c) (Code.renderAll l rest)

/-- The attributes of an element with their texts. -/
def Code.renderAttributes (l : Linkage) :
    List (Bytes × TextCode) → Scope → Run → List (Bytes × Bytes) × Run
  | [], _, r => ([], r)
  | (key, value) :: rest, s, r =>
    let (text, r) := TextCode.render l value s r
    let (as, r) := Code.renderAttributes l rest s r
    ((key, text) :: as, r)

/-- What the section behind an `else` renders. -/
def Code.renderInverse (l : Linkage) : Option Code → Option Render
  | none => none
  | some c => some (Code.render l c)

/-- The text that a text expression computes. -/
def TextCode.render (l : Linkage) : TextCode → Scope → Run → Bytes × Run
  | .literal s, _, r => (s, r)
  | .flattened code, s, r =>
    let (ns, r) := Code.render l code s r
    (Node.textOf ns, r)

end

end Stencil
