import Stencil.Compile

/-!
# The grammar of blocks

The lists of a template are the children of its elements, their names and their attribute values.
A list is taken as a sequence of items, each an element or a single fragment.

`Derives` is the grammar of these sequences:

    list := (literal | interpolation | partial | element | open list [else list] close)*

where the marks that open and close a block have the same name, all names are known, and a path
climbs at most as many contexts as blocks are around it.  The arguments of a block count the blocks
outside of it; both of its sections count one more.

`Op.markers` writes a program back out as such a sequence, with paths in the form that programs
hold, and `Tree.markers` gives the same form of a source.
-/

namespace Stencil

/-- One entry of a list of a template: an element or a single fragment. -/
inductive Item where
  | fragment (f : Fragment)
  | element (name : List Fragment) (attributes : List (Bytes × List Fragment))
      (children : List Tree)

namespace Item

/-- The items of a node. -/
def ofTree : Tree → List Item
  | .text _ fs => fs.map .fragment
  | .element _ name attributes children => [.element name attributes children]

/-- The items of the nodes of a list. -/
def ofForest (trees : List Tree) : List Item := trees.flatMap ofTree

@[simp] theorem ofForest_nil : ofForest [] = [] := rfl

@[simp] theorem ofForest_cons (t : Tree) (trees : List Tree) :
    ofForest (t :: trees) = ofTree t ++ ofForest trees := rfl

end Item

/-- How many contexts an operand climbs. -/
def Operand.hops : Operand PathExpr Literal → Nat
  | .path p => p.hops
  | .literal _ => 0

/-- The sequences of items that form a list with `depth` blocks around it. -/
inductive Derives (names : Names) : (depth : Nat) → List Item → Prop
  | nil {depth : Nat} : Derives names depth []
  | literal {depth : Nat} {span : Span} {s : Bytes} {rest : List Item} :
      Derives names depth rest →
      Derives names depth (.fragment ⟨span, .literal s⟩ :: rest)
  | interpolation {depth : Nat} {span : Span} {p : PathExpr} {rest : List Item}
      (climbs : p.hops ≤ depth) :
      Derives names depth rest →
      Derives names depth (.fragment ⟨span, .interpolation p⟩ :: rest)
  | inclusion {depth : Nat} {span : Span} {name : Bytes} {context : Option PathExpr}
      {parameters : List (Bytes × Operand PathExpr Literal)} {rest : List Item}
      (known : names.partialName name = true)
      (contextClimbs : ∀ p ∈ context, p.hops ≤ depth)
      (climbs : ∀ a ∈ parameters, a.2.hops ≤ depth) :
      Derives names depth rest →
      Derives names depth (.fragment ⟨span, .inclusion name context parameters⟩ :: rest)
  | element {depth : Nat} {name : List Fragment} {attributes : List (Bytes × List Fragment)}
      {children : List Tree} {rest : List Item} :
      Derives names depth (name.map .fragment) →
      (∀ a ∈ attributes, Derives names depth (a.2.map .fragment)) →
      Derives names depth (Item.ofForest children) →
      Derives names depth rest →
      Derives names depth (.element name attributes children :: rest)
  | block {depth : Nat} {span closing : Span} {name : Bytes} {arguments : List Argument}
      {synthetic : Bool} {body rest : List Item}
      (known : names.helper name = true)
      (climbs : ∀ a ∈ arguments, a.value.hops ≤ depth) :
      Derives names (depth + 1) body →
      Derives names depth rest →
      Derives names depth
        (.fragment ⟨span, .opening name arguments synthetic⟩ ::
          (body ++ .fragment ⟨closing, .closing name⟩ :: rest))
  | blockElse {depth : Nat} {span middle closing : Span} {name : Bytes}
      {arguments : List Argument} {synthetic : Bool} {body inverse rest : List Item}
      (known : names.helper name = true)
      (climbs : ∀ a ∈ arguments, a.value.hops ≤ depth) :
      Derives names (depth + 1) body →
      Derives names (depth + 1) inverse →
      Derives names depth rest →
      Derives names depth
        (.fragment ⟨span, .opening name arguments synthetic⟩ ::
          (body ++ .fragment ⟨middle, .otherwise⟩ ::
            (inverse ++ .fragment ⟨closing, .closing name⟩ :: rest)))

/-- Two lists one after the other form a list. -/
theorem Derives.append
    {names : Names} {depth : Nat} {front back : List Item}
    (hfront : Derives names depth front)
    (hback : Derives names depth back) :
    Derives names depth (front ++ back) := by
  induction hfront with
  | nil =>
      exact hback
  | literal _ ih =>
      exact .literal (ih hback)
  | interpolation climbs _ ih =>
      exact .interpolation climbs (ih hback)
  | inclusion known contextClimbs climbs _ ih =>
      exact .inclusion known contextClimbs climbs (ih hback)
  | element hname hattributes hchildren _ _ _ _ ih =>
      exact .element hname hattributes hchildren (ih hback)
  | block known climbs hbody _ _ ih =>
      simpa using Derives.block known climbs hbody (ih hback)
  | blockElse known climbs hbody hinverse _ _ _ ih =>
      simpa using Derives.blockElse known climbs hbody hinverse (ih hback)

/-- An entry of a list written back out, with paths as programs hold them and the positional and
named arguments of a block apart. -/
inductive Marker where
  | literal (value : Bytes)
  | interpolation (path : Path)
  | inclusion (name : Bytes) (context : Option Path) (parameters : List (Bytes × Input))
  | opening (name : Bytes) (arguments : List Input) (named : List (Bytes × Input))
      (synthetic : Bool)
  | otherwise
  | closing (name : Bytes)
  | element (name : List Marker) (attributes : List (Bytes × List Marker))
      (children : List Marker)

/-- An operand as programs hold it. -/
def Operand.resolve : Operand PathExpr Literal → Input
  | .path p => .path p.toPath
  | .literal l => .literal (.written l)

namespace Argument

/-- The positional arguments among some, in source order. -/
def positional (arguments : List Argument) : List Input :=
  arguments.filterMap fun a => match a.name with
    | none => some a.value.resolve
    | some _ => none

/-- The named arguments among some, in source order. -/
def named (arguments : List Argument) : List (Bytes × Input) :=
  arguments.filterMap fun a => a.name.map fun name => (name, a.value.resolve)

end Argument

/-- What a mark is written back out as. -/
def Mark.marker : Mark → Marker
  | .literal s => .literal s
  | .interpolation p => .interpolation p.toPath
  | .opening name arguments synthetic =>
    .opening name (Argument.positional arguments) (Argument.named arguments) synthetic
  | .otherwise => .otherwise
  | .closing name => .closing name
  | .inclusion name context parameters =>
    .inclusion name (context.map PathExpr.toPath) (parameters.map fun a => (a.1, a.2.resolve))

/-- The markers of fragments. -/
def Fragment.markers (fs : List Fragment) : List Marker := fs.map fun f => f.mark.marker

mutual

/-- The markers of a node of a template. -/
def Tree.markers : Tree → List Marker
  | .text _ fs => Fragment.markers fs
  | .element _ name attributes children =>
    [.element (Fragment.markers name) (attributes.map fun a => (a.1, Fragment.markers a.2))
      (Tree.forestMarkers children)]

/-- The markers of the nodes of a list. -/
def Tree.forestMarkers : List Tree → List Marker
  | [] => []
  | t :: rest => t.markers ++ Tree.forestMarkers rest

end

mutual

/-- A step written back out: a block as its opening mark, its sections and its closing mark. -/
def Op.markers : Op → List Marker
  | .literal s => [.literal s]
  | .interpolation p => [.interpolation p]
  | .inclusion name context parameters => [.inclusion name context parameters]
  | .element name attributes children =>
    [.element (Op.allMarkers name) (Op.attributeMarkers attributes) (Op.allMarkers children)]
  | .block name arguments named body inverse synthetic =>
    .opening name arguments named synthetic ::
      (Op.allMarkers body ++ Op.inverseMarkers inverse ++ [.closing name])
  | .unknown => []

/-- Steps written back out one after the other. -/
def Op.allMarkers : List Op → List Marker
  | [] => []
  | op :: rest => op.markers ++ Op.allMarkers rest

/-- The steps of attribute values written back out. -/
def Op.attributeMarkers : List (Bytes × List Op) → List (Bytes × List Marker)
  | [] => []
  | (key, value) :: rest => (key, Op.allMarkers value) :: Op.attributeMarkers rest

/-- The `else` of a block and the section behind it written back out. -/
def Op.inverseMarkers : Option (List Op) → List Marker
  | none => []
  | some ops => .otherwise :: Op.allMarkers ops

end

end Stencil
