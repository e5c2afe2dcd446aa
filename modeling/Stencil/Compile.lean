import Stencil.Diagnostic
import Stencil.Program
import Stencil.Tree

/-!
# Compiling templates

From the forest of a template to its program: the marks of blocks are matched, the names of helpers
and partials are looked up, and every path is checked not to climb out of the blocks around it.

Input: a forest, and the names that are known.

Algorithm: the nodes and fragments are taken in order.  The blocks that are still open are kept
innermost first, each with the steps of its sections so far; an `else` begins the second section of
the innermost block, and a closing mark completes it.  A path may climb as many contexts as blocks
are open around it.  The first fault ends the compilation.
-/

namespace Stencil

/-- The names that a template may use. -/
structure Names where
  helper : Bytes → Bool
  partialName : Bytes → Bool

/-- Every name is known. -/
def Names.any : Names := ⟨fun _ => true, fun _ => true⟩

namespace Compile

/-- A block that is still open: its opening mark with the arguments compiled, the steps of its body,
and, behind an `else`, the offset of the `else` and the steps since then. -/
structure OpenBlock where
  span : Span
  name : Bytes
  arguments : List Input
  named : List (Bytes × Input)
  synthetic : Bool
  body : List Op := []
  inverse : Option (Nat × List Op) := none

/-- The step of a completed block. -/
def OpenBlock.op (b : OpenBlock) : Op :=
  .block b.name b.arguments b.named b.body (b.inverse.map (·.2)) b.synthetic

/-- A step added to the section that is open. -/
def OpenBlock.add (op : Op) (b : OpenBlock) : OpenBlock :=
  match b.inverse with
  | none => { b with body := b.body ++ [op] }
  | some (offset, ops) => { b with inverse := some (offset, ops ++ [op]) }

/-- The state of matching: the open blocks, innermost first, and the completed steps outside of
them. -/
structure Matcher where
  stack : List OpenBlock := []
  ops : List Op := []

/-- A step added to the innermost open block, or to the completed steps. -/
def Matcher.add (op : Op) (m : Matcher) : Matcher :=
  match m.stack with
  | [] => { m with ops := m.ops ++ [op] }
  | b :: stack => { m with stack := b.add op :: stack }

/-- A path that climbs at most `depth` contexts. -/
def checkPath (depth : Nat) (p : PathExpr) : Except Cause Path :=
  if p.hops ≤ depth then .ok p.toPath else .error (.climbsTooFar p.hops depth)

/-- An operand whose path climbs at most `depth` contexts. -/
def checkOperand (depth : Nat) : Operand PathExpr Literal → Except Cause Input
  | .path p => .path <$> checkPath depth p
  | .literal l => .ok (.literal (.written l))

/-- A named operand whose path climbs at most `depth` contexts. -/
def checkNamed (depth : Nat) (a : Bytes × Operand PathExpr Literal) :
    Except Cause (Bytes × Input) := do
  return (a.1, ← checkOperand depth a.2)

/-- The arguments of a block, in source order: positional and named ones apart. -/
def checkArguments (depth : Nat) :
    List Argument → Except Cause (List Input × List (Bytes × Input))
  | [] => .ok ([], [])
  | a :: rest => do
    let value ← checkOperand depth a.value
    let (positional, named) ← checkArguments depth rest
    return match a.name with
      | some name => (positional, (name, value) :: named)
      | none => (value :: positional, named)

/-- One mark, with `outer` blocks open around the list that it stands in. -/
def Matcher.mark (names : Names) (outer : Nat) (m : Matcher) (span : Span) :
    Mark → Except Cause Matcher
  | .literal s => .ok (m.add (.literal s))
  | .interpolation p => do
    return m.add (.interpolation (← checkPath (outer + m.stack.length) p))
  | .inclusion name context parameters =>
    if names.partialName name then do
      let depth := outer + m.stack.length
      let context ← context.mapM (checkPath depth)
      let parameters ← parameters.mapM (checkNamed depth)
      return m.add (.inclusion name context parameters)
    else .error (.unknownPartial name)
  | .opening name arguments synthetic =>
    if names.helper name then do
      let (positional, named) ← checkArguments (outer + m.stack.length) arguments
      return { m with stack := ⟨span, name, positional, named, synthetic, [], none⟩ :: m.stack }
    else .error (.unknownHelper name)
  | .otherwise =>
    match m.stack with
    | [] => .error .strayElse
    | b :: stack =>
      match b.inverse with
      | some (first, _) => .error (.secondElse b.name first)
      | none => .ok { m with stack := { b with inverse := some (span.start, []) } :: stack }
  | .closing name =>
    match m.stack with
    | [] => .error (.strayClose name)
    | b :: stack =>
      if name = b.name then .ok ({ m with stack := stack }.add b.op)
      else .error (.wrongClose name b.name)

/-- One fragment. -/
def Matcher.fragment (names : Names) (outer : Nat) (m : Matcher) (f : Fragment) :
    Except Fault Matcher :=
  (m.mark names outer f.span f.mark).mapError (⟨·, f.span⟩)

/-- The steps, when no block is left open. -/
def Matcher.finish (m : Matcher) : Except Fault (List Op) :=
  match m.stack with
  | [] => .ok m.ops
  | b :: _ => .error ⟨.unterminated b.name, b.span⟩

/-- The steps of the fragments of a name or an attribute value. -/
def fragments (names : Names) (outer : Nat) (fs : List Fragment) : Except Fault (List Op) := do
  (← fs.foldlM (Matcher.fragment names outer) {}).finish

/-- The steps of an attribute. -/
def attributeOps (names : Names) (outer : Nat) (a : Bytes × List Fragment) :
    Except Fault (Bytes × List Op) := do
  return (a.1, ← fragments names outer a.2)

mutual

/-- One node of a list with `outer` blocks open around it. -/
def node (names : Names) (outer : Nat) (m : Matcher) : Tree → Except Fault Matcher
  | .text _ fs => fs.foldlM (Matcher.fragment names outer) m
  | .element _ name attributes children => do
    let depth := outer + m.stack.length
    let name ← fragments names depth name
    let attributes ← attributes.mapM (attributeOps names depth)
    let children ← nodes names depth {} children
    return m.add (.element name attributes children)

/-- The nodes of a list with `outer` blocks open around it. -/
def nodes (names : Names) (outer : Nat) (m : Matcher) : List Tree → Except Fault (List Op)
  | [] => m.finish
  | t :: rest => do nodes names outer (← node names outer m t) rest

end

/-- The steps of a forest. -/
def forest (names : Names) (trees : List Tree) : Except Fault (List Op) := nodes names 0 {} trees

end Compile

/-- The program of a template source. -/
def compile (reading : Reading) (names : Names) (name source : Bytes) :
    Except Diagnostic Program :=
  let result := do
    let trees ← Tree.read reading source
    Compile.forest names trees
  match result with
  | .ok ops => .ok ⟨name, ops⟩
  | .error fault => .error ⟨name, source, fault⟩

end Stencil
