import Mathlib.Tactic.Choose
import Stencil.Proofs.Compile.Grammar

/-!
# Lists and their steps

`Compiled` relates the items of a list to the steps that they are compiled to, along the grammar of
blocks.  What holds of all compiled programs is shown by induction on it, without a look at how
blocks are matched.

Results:
* `Compiled.allMarkers_eq`: the steps write back out as the items.
* `Compiled.allPlaced`: no path climbs further than the blocks around it.
* `Compiled.inputs_written`: every operand is one that the source writes.
-/

namespace Stencil

/-- The marks that are a step of their own with `depth` blocks around them, and their steps. -/
inductive Mark.Compiled (names : Names) (depth : Nat) : Mark → Op → Prop
  | literal {s : Bytes} : Mark.Compiled names depth (.literal s) (.literal s)
  | interpolation {p : PathExpr}
      (climbs : p.hops ≤ depth) :
      Mark.Compiled names depth (.interpolation p) (.interpolation p.toPath)
  | inclusion {name : Bytes} {context : Option PathExpr}
      {parameters : List (Bytes × Operand PathExpr Literal)}
      (known : names.partialName name = true)
      (contextClimbs : ∀ p ∈ context, p.hops ≤ depth)
      (climbs : ∀ a ∈ parameters, a.2.hops ≤ depth) :
      Mark.Compiled names depth (.inclusion name context parameters)
        (.inclusion name (context.map PathExpr.toPath)
          (parameters.map fun a => (a.1, a.2.resolve)))

/-- The items of a list with `depth` blocks around it, and the steps that they are compiled to. -/
inductive Compiled (names : Names) : (depth : Nat) → List Item → List Op → Prop
  | nil {depth : Nat} : Compiled names depth [] []
  | mark {depth : Nat} {span : Span} {mark : Mark} {op : Op} {rest : List Item} {ops : List Op} :
      mark.Compiled names depth op →
      Compiled names depth rest ops →
      Compiled names depth (.fragment ⟨span, mark⟩ :: rest) (op :: ops)
  | element {depth : Nat} {name : List Fragment} {attributes : List (Bytes × List Fragment)}
      {children : List Tree} {rest : List Item} {nameOps childOps ops : List Op}
      {value : List Fragment → List Op} :
      Compiled names depth (name.map .fragment) nameOps →
      (∀ a ∈ attributes, Compiled names depth (a.2.map .fragment) (value a.2)) →
      Compiled names depth (Item.ofForest children) childOps →
      Compiled names depth rest ops →
      Compiled names depth (.element name attributes children :: rest)
        (.element nameOps (attributes.map fun a => (a.1, value a.2)) childOps :: ops)
  | block {depth : Nat} {span closing : Span} {name : Bytes} {arguments : List Argument}
      {synthetic : Bool} {body rest : List Item} {bodyOps ops : List Op}
      (known : names.helper name = true)
      (climbs : ∀ a ∈ arguments, a.value.hops ≤ depth) :
      Compiled names (depth + 1) body bodyOps →
      Compiled names depth rest ops →
      Compiled names depth
        (.fragment ⟨span, .opening name arguments synthetic⟩ ::
          (body ++ .fragment ⟨closing, .closing name⟩ :: rest))
        (.block name (Argument.positional arguments) (Argument.named arguments) bodyOps none
          synthetic :: ops)
  | blockElse {depth : Nat} {span middle closing : Span} {name : Bytes}
      {arguments : List Argument} {synthetic : Bool} {body inverse rest : List Item}
      {bodyOps inverseOps ops : List Op}
      (known : names.helper name = true)
      (climbs : ∀ a ∈ arguments, a.value.hops ≤ depth) :
      Compiled names (depth + 1) body bodyOps →
      Compiled names (depth + 1) inverse inverseOps →
      Compiled names depth rest ops →
      Compiled names depth
        (.fragment ⟨span, .opening name arguments synthetic⟩ ::
          (body ++ .fragment ⟨middle, .otherwise⟩ ::
            (inverse ++ .fragment ⟨closing, .closing name⟩ :: rest)))
        (.block name (Argument.positional arguments) (Argument.named arguments) bodyOps
          (some inverseOps) synthetic :: ops)

/-- Every derivable list can be compiled. -/
theorem Derives.compiled
    {names : Names} {depth : Nat} {items : List Item}
    (h : Derives names depth items) :
    ∃ ops, Compiled names depth items ops := by
  induction h with
  | nil =>
      exact ⟨[], .nil⟩
  | literal _ ih =>
      obtain ⟨ops, hops⟩ := ih
      exact ⟨_, .mark .literal hops⟩
  | interpolation climbs _ ih =>
      obtain ⟨ops, hops⟩ := ih
      exact ⟨_, .mark (.interpolation climbs) hops⟩
  | inclusion known contextClimbs climbs _ ih =>
      obtain ⟨ops, hops⟩ := ih
      exact ⟨_, .mark (.inclusion known contextClimbs climbs) hops⟩
  | @element depth name attributes children rest _ _ _ _ ihName ihAttributes ihChildren ih =>
      obtain ⟨nameOps, hname⟩ := ihName
      obtain ⟨childOps, hchildren⟩ := ihChildren
      obtain ⟨ops, hops⟩ := ih
      -- The steps of a value depend on its fragments only, so they can be given by a function.
      have hvalue : ∀ fs : List Fragment, ∃ valueOps : List Op,
          (∃ a ∈ attributes, a.2 = fs) → Compiled names depth (fs.map .fragment) valueOps := by
        intro fs
        by_cases hfs : ∃ a ∈ attributes, a.2 = fs
        · obtain ⟨a, ha, rfl⟩ := hfs
          obtain ⟨valueOps, hvalueOps⟩ := ihAttributes a ha
          exact ⟨valueOps, fun _ => hvalueOps⟩
        · exact ⟨[], fun h => absurd h hfs⟩
      choose value hvalue using hvalue
      exact ⟨_, .element hname (fun a ha => hvalue a.2 ⟨a, ha, rfl⟩) hchildren hops⟩
  | block known climbs _ _ ihBody ih =>
      obtain ⟨bodyOps, hbody⟩ := ihBody
      obtain ⟨ops, hops⟩ := ih
      exact ⟨_, .block known climbs hbody hops⟩
  | blockElse known climbs _ _ _ ihBody ihInverse ih =>
      obtain ⟨bodyOps, hbody⟩ := ihBody
      obtain ⟨inverseOps, hinverse⟩ := ihInverse
      obtain ⟨ops, hops⟩ := ih
      exact ⟨_, .blockElse known climbs hbody hinverse hops⟩

/-! ## Writing steps back out -/

/-- The markers of an item. -/
def Item.marker : Item → Marker
  | .fragment f => f.mark.marker
  | .element name attributes children =>
    .element (Fragment.markers name) (attributes.map fun a => (a.1, Fragment.markers a.2))
      (Tree.forestMarkers children)

theorem Item.map_marker_fragments
    (fs : List Fragment) :
    (fs.map Item.fragment).map Item.marker = Fragment.markers fs := by
  simp only [List.map_map, Fragment.markers]
  rfl

theorem Item.map_marker_ofForest
    (trees : List Tree) :
    (Item.ofForest trees).map Item.marker = Tree.forestMarkers trees := by
  induction trees with
  | nil =>
      rfl
  | cons t rest ih =>
      rw [Item.ofForest_cons, List.map_append, ih, Tree.forestMarkers]
      cases t with
      | text span fs =>
          rw [Item.ofTree, Item.map_marker_fragments, Tree.markers]
      | element span name attributes children =>
          rw [Tree.markers]
          rfl

theorem Op.attributeMarkers_map
    {attributes : List (Bytes × List Fragment)} {value : List Fragment → List Op}
    (h : ∀ a ∈ attributes, Op.allMarkers (value a.2) = Fragment.markers a.2) :
    Op.attributeMarkers (attributes.map fun a => (a.1, value a.2)) =
      attributes.map fun a => (a.1, Fragment.markers a.2) := by
  induction attributes with
  | nil =>
      rfl
  | cons a rest ih =>
      have hrest := ih fun b hb => h b (List.mem_cons_of_mem a hb)
      simp [Op.attributeMarkers, hrest, h a List.mem_cons_self]

/-- A step that stands for one mark writes back out as that mark. -/
theorem Mark.Compiled.markers_eq
    {names : Names} {depth : Nat} {mark : Mark} {op : Op}
    (h : mark.Compiled names depth op) :
    op.markers = [mark.marker] := by
  cases h <;> simp [Op.markers, Mark.marker]

/-- The steps of a list write back out as its items. -/
theorem Compiled.allMarkers_eq
    {names : Names} {depth : Nat} {list : List Item} {ops : List Op}
    (h : Compiled names depth list ops) :
    Op.allMarkers ops = list.map Item.marker := by
  induction h with
  | nil =>
      rfl
  | mark hmark _ ih =>
      rw [Op.allMarkers, hmark.markers_eq, ih]
      rfl
  | element _ _ _ _ ihName ihAttributes ihChildren ih =>
      have hattributes := Op.attributeMarkers_map fun a ha =>
        (ihAttributes a ha).trans (Item.map_marker_fragments a.2)
      rw [Op.allMarkers, Op.markers, ihName, ihChildren, hattributes, ih,
        Item.map_marker_fragments, Item.map_marker_ofForest]
      rfl
  | block _ _ _ _ ihBody ih =>
      simp [Op.allMarkers, Op.markers, Op.inverseMarkers, ihBody, ih, Item.marker, Mark.marker]
  | blockElse _ _ _ _ _ ihBody ihInverse ih =>
      simp [Op.allMarkers, Op.markers, Op.inverseMarkers, ihBody, ihInverse, ih, Item.marker,
        Mark.marker]

/-! ## Paths stay inside of their blocks -/

theorem PathExpr.toPath_hops
    (p : PathExpr) :
    p.toPath.hops = p.hops := by
  induction p with
  | parent n tail ih =>
      simp [PathExpr.toPath, PathExpr.hops, Path.up, ih]
  | raw inner ih =>
      simpa [PathExpr.toPath, PathExpr.hops, Path.trust] using ih
  | this | metadata | dotted =>
      rfl

/-- An operand that climbs at most `depth` contexts. -/
def Operand.Placed (depth : Nat) : Input → Prop
  | .path p => p.hops ≤ depth
  | .literal _ => True

mutual

/-- A step that may stand with `depth` blocks around it: its paths, and those of all steps below
it, climb at most as many contexts as blocks are around them. -/
def Op.Placed (depth : Nat) : Op → Prop
  | .literal _ => True
  | .interpolation p => p.hops ≤ depth
  | .element name attributes children =>
    Op.AllPlaced depth name ∧ Op.AttributesPlaced depth attributes ∧ Op.AllPlaced depth children
  | .block _ arguments named body inverse _ =>
    (∀ a ∈ arguments, Operand.Placed depth a) ∧ (∀ a ∈ named, Operand.Placed depth a.2) ∧
      Op.AllPlaced (depth + 1) body ∧ Op.InversePlaced (depth + 1) inverse
  | .inclusion _ context parameters =>
    (∀ p ∈ context, p.hops ≤ depth) ∧ ∀ a ∈ parameters, Operand.Placed depth a.2
  | .unknown => True

/-- Steps that may stand with `depth` blocks around them. -/
def Op.AllPlaced (depth : Nat) : List Op → Prop
  | [] => True
  | op :: rest => op.Placed depth ∧ Op.AllPlaced depth rest

/-- Attribute values that may stand with `depth` blocks around them. -/
def Op.AttributesPlaced (depth : Nat) : List (Bytes × List Op) → Prop
  | [] => True
  | (_, value) :: rest => Op.AllPlaced depth value ∧ Op.AttributesPlaced depth rest

/-- A section behind an `else` that may stand with `depth` blocks around it. -/
def Op.InversePlaced (depth : Nat) : Option (List Op) → Prop
  | none => True
  | some ops => Op.AllPlaced depth ops

end

theorem Operand.placed_resolve
    {depth : Nat} {a : Operand PathExpr Literal}
    (h : a.hops ≤ depth) :
    Operand.Placed depth a.resolve := by
  cases a with
  | path p =>
      rw [Operand.hops] at h
      simp only [Operand.resolve, Operand.Placed, PathExpr.toPath_hops]
      exact_mod_cast h
  | literal l =>
      trivial

theorem Argument.mem_positional
    {arguments : List Argument} {a : Input}
    (h : a ∈ Argument.positional arguments) :
    ∃ b ∈ arguments, a = b.value.resolve := by
  obtain ⟨b, hb, hba⟩ := List.mem_filterMap.1 h
  cases hname : b.name with
  | none =>
      rw [hname] at hba
      cases hba
      exact ⟨b, hb, rfl⟩
  | some name =>
      rw [hname] at hba
      cases hba

theorem Argument.mem_named
    {arguments : List Argument} {a : Bytes × Input}
    (h : a ∈ Argument.named arguments) :
    ∃ b ∈ arguments, a.2 = b.value.resolve := by
  obtain ⟨b, hb, hba⟩ := List.mem_filterMap.1 h
  obtain ⟨name, _, rfl⟩ := Option.map_eq_some_iff.1 hba
  exact ⟨b, hb, rfl⟩

theorem Argument.placed
    {depth : Nat} {arguments : List Argument}
    (h : ∀ a ∈ arguments, a.value.hops ≤ depth) :
    (∀ a ∈ Argument.positional arguments, Operand.Placed depth a) ∧
      ∀ a ∈ Argument.named arguments, Operand.Placed depth a.2 := by
  refine ⟨fun a ha => ?_, fun a ha => ?_⟩
  · obtain ⟨b, hb, rfl⟩ := Argument.mem_positional ha
    exact Operand.placed_resolve (h b hb)
  · obtain ⟨b, hb, hba⟩ := Argument.mem_named ha
    rw [hba]
    exact Operand.placed_resolve (h b hb)

theorem Op.attributesPlaced_map
    {depth : Nat} {attributes : List (Bytes × List Fragment)} {value : List Fragment → List Op}
    (h : ∀ a ∈ attributes, Op.AllPlaced depth (value a.2)) :
    Op.AttributesPlaced depth (attributes.map fun a => (a.1, value a.2)) := by
  induction attributes with
  | nil =>
      trivial
  | cons a rest ih =>
      exact ⟨h a List.mem_cons_self, ih fun b hb => h b (List.mem_cons_of_mem a hb)⟩

theorem Mark.Compiled.placed
    {names : Names} {depth : Nat} {mark : Mark} {op : Op}
    (h : mark.Compiled names depth op) :
    op.Placed depth := by
  cases h with
  | literal =>
      trivial
  | @interpolation p climbs =>
      simp only [Op.Placed, PathExpr.toPath_hops]
      exact_mod_cast climbs
  | @inclusion name context parameters known contextClimbs climbs =>
      refine ⟨?_, ?_⟩
      · intro q hq
        obtain ⟨p, hp, rfl⟩ := Option.map_eq_some_iff.1 hq
        rw [PathExpr.toPath_hops]
        exact_mod_cast contextClimbs p hp
      · intro a ha
        obtain ⟨b, hb, rfl⟩ := List.mem_map.1 ha
        exact Operand.placed_resolve (climbs b hb)

/-- No path of a compiled list climbs further than the blocks around it. -/
theorem Compiled.allPlaced
    {names : Names} {depth : Nat} {list : List Item} {ops : List Op}
    (h : Compiled names depth list ops) :
    Op.AllPlaced depth ops := by
  induction h with
  | nil =>
      trivial
  | mark hmark _ ih =>
      exact ⟨hmark.placed, ih⟩
  | element _ _ _ _ ihName ihAttributes ihChildren ih =>
      exact ⟨⟨ihName, Op.attributesPlaced_map ihAttributes, ihChildren⟩, ih⟩
  | block _ climbs _ _ ihBody ih =>
      obtain ⟨hpositional, hnamed⟩ := Argument.placed climbs
      exact ⟨⟨hpositional, hnamed, ihBody, trivial⟩, ih⟩
  | blockElse _ climbs _ _ _ ihBody ihInverse ih =>
      obtain ⟨hpositional, hnamed⟩ := Argument.placed climbs
      exact ⟨⟨hpositional, hnamed, ihBody, ihInverse⟩, ih⟩

/-! ## Operands come from the source -/

mutual

/-- The operands of a step and of all steps below it. -/
def Op.inputs : Op → List Input
  | .element name attributes children =>
    Op.allInputs name ++ Op.attributeInputs attributes ++ Op.allInputs children
  | .block _ arguments named body inverse _ =>
    arguments ++ named.map Prod.snd ++ Op.allInputs body ++ Op.inverseInputs inverse
  | .inclusion _ _ parameters => parameters.map Prod.snd
  | .literal _ | .interpolation _ | .unknown => []

/-- The operands of steps. -/
def Op.allInputs : List Op → List Input
  | [] => []
  | op :: rest => op.inputs ++ Op.allInputs rest

/-- The operands of the steps of attribute values. -/
def Op.attributeInputs : List (Bytes × List Op) → List Input
  | [] => []
  | (_, value) :: rest => Op.allInputs value ++ Op.attributeInputs rest

/-- The operands of the steps behind an `else`. -/
def Op.inverseInputs : Option (List Op) → List Input
  | none => []
  | some ops => Op.allInputs ops

end

/-- An operand that a template can write. -/
def Operand.Written (a : Input) : Prop := ∃ o : Operand PathExpr Literal, a = o.resolve

/-- The operands of a block, positional and named. -/
theorem Argument.operands_written
    {arguments : List Argument} :
    (∀ i ∈ Argument.positional arguments, Operand.Written i) ∧
      ∀ i ∈ (Argument.named arguments).map Prod.snd, Operand.Written i := by
  refine ⟨fun i hi => ?_, List.forall_mem_map.2 fun a ha => ?_⟩
  · obtain ⟨b, _, rfl⟩ := Argument.mem_positional hi
    exact ⟨b.value, rfl⟩
  · obtain ⟨b, _, hba⟩ := Argument.mem_named ha
    exact ⟨b.value, hba⟩

theorem Op.written_attributeInputs
    {attributes : List (Bytes × List Fragment)} {value : List Fragment → List Op}
    (h : ∀ a ∈ attributes, ∀ i ∈ Op.allInputs (value a.2), Operand.Written i) :
    ∀ i ∈ Op.attributeInputs (attributes.map fun a => (a.1, value a.2)), Operand.Written i := by
  induction attributes with
  | nil =>
      exact fun i hi => absurd hi List.not_mem_nil
  | cons a rest ih =>
      obtain ⟨hvalue, hrest⟩ := List.forall_mem_cons.1 h
      exact List.forall_mem_append.2 ⟨hvalue, ih hrest⟩

theorem Mark.Compiled.inputs_written
    {names : Names} {depth : Nat} {mark : Mark} {op : Op}
    (h : mark.Compiled names depth op) :
    ∀ i ∈ op.inputs, Operand.Written i := by
  cases h with
  | literal | interpolation =>
      intro i hi
      cases hi
  | inclusion known contextClimbs climbs =>
      intro i hi
      simp only [Op.inputs, List.map_map, List.mem_map] at hi
      obtain ⟨a, _, rfl⟩ := hi
      exact ⟨a.2, rfl⟩

/-- Every operand of a compiled list is one that a template can write. -/
theorem Compiled.inputs_written
    {names : Names} {depth : Nat} {list : List Item} {ops : List Op}
    (h : Compiled names depth list ops) :
    ∀ i ∈ Op.allInputs ops, Operand.Written i := by
  induction h with
  | nil =>
      exact fun i hi => absurd hi List.not_mem_nil
  | mark hmark _ ih =>
      exact List.forall_mem_append.2 ⟨hmark.inputs_written, ih⟩
  | element _ _ _ _ ihName ihAttributes ihChildren ih =>
      simp only [Op.allInputs, Op.inputs, List.forall_mem_append]
      exact ⟨⟨⟨ihName, Op.written_attributeInputs ihAttributes⟩, ihChildren⟩, ih⟩
  | block _ _ _ _ ihBody ih =>
      simp only [Op.allInputs, Op.inputs, Op.inverseInputs, List.append_nil, List.forall_mem_append]
      exact ⟨⟨Argument.operands_written, ihBody⟩, ih⟩
  | blockElse _ _ _ _ _ ihBody ihInverse ih =>
      simp only [Op.allInputs, Op.inputs, Op.inverseInputs, List.forall_mem_append]
      exact ⟨⟨⟨Argument.operands_written, ihBody⟩, ihInverse⟩, ih⟩

end Stencil
