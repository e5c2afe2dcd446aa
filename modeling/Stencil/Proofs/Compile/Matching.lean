import Stencil.Proofs.Checks
import Stencil.Proofs.Compile.Translation

/-!
# Matching of blocks

Compiling accepts exactly the templates whose lists are derivable from the grammar of blocks, and
the program that it gives writes back out as the source.

Algorithm: the matcher keeps a stack of open blocks, so a run that ends with no open block is a
derivation only once the items left over have closed every block on the stack.  `Closes` says what a
stack demands of the items that are still to come.

Results: `Compile.nodes_eq_ok_iff` says that compiling a list is `Compiled`, and
`forest_accepted_iff_derives_and_markers_eq` is the exactness of matching.
-/

namespace Stencil

namespace Compile

/-! ## What the checks accept -/

theorem checkPath_eq_ok_iff
    {depth : Nat} (p : PathExpr) (q : Path) :
    checkPath depth p = .ok q ↔ p.hops ≤ depth ∧ q = p.toPath := by
  unfold checkPath
  by_cases h : p.hops ≤ depth
  · simp [h, eq_comm]
  · simp [h]

theorem checkOperand_eq_ok_iff
    {depth : Nat} (a : Operand PathExpr Literal) (b : Input) :
    checkOperand depth a = .ok b ↔ a.hops ≤ depth ∧ b = a.resolve := by
  cases a with
  | path p =>
      have hmap : checkOperand depth (.path p) = (do return .path (← checkPath depth p)) := rfl
      rw [hmap]
      simp only [bind_eq_ok_iff, pure_eq_ok_iff, checkPath_eq_ok_iff]
      constructor
      · rintro ⟨q, ⟨hp, rfl⟩, rfl⟩
        exact ⟨hp, rfl⟩
      · rintro ⟨hp, rfl⟩
        exact ⟨p.toPath, ⟨hp, rfl⟩, rfl⟩
  | literal l =>
      simp [checkOperand, Operand.hops, Operand.resolve, eq_comm]

theorem checkNamed_eq_ok_iff
    {depth : Nat} (a : Bytes × Operand PathExpr Literal) (b : Bytes × Input) :
    checkNamed depth a = .ok b ↔ a.2.hops ≤ depth ∧ b = (a.1, a.2.resolve) := by
  unfold checkNamed
  simp only [bind_eq_ok_iff, pure_eq_ok_iff, checkOperand_eq_ok_iff]
  constructor
  · rintro ⟨v, ⟨hv, rfl⟩, rfl⟩
    exact ⟨hv, rfl⟩
  · rintro ⟨ha, rfl⟩
    exact ⟨_, ⟨ha, rfl⟩, rfl⟩

theorem checkArguments_eq_ok_iff
    {depth : Nat} (arguments : List Argument) (result : List Input × List (Bytes × Input)) :
    checkArguments depth arguments = .ok result ↔
      (∀ a ∈ arguments, a.value.hops ≤ depth) ∧
        result = (Argument.positional arguments, Argument.named arguments) := by
  induction arguments generalizing result with
  | nil =>
      simp [checkArguments, Argument.positional, Argument.named, eq_comm]
  | cons a rest ih =>
      simp only [checkArguments, bind_eq_ok_iff, pure_eq_ok_iff, checkOperand_eq_ok_iff, ih]
      constructor
      · rintro ⟨v, ⟨hv, rfl⟩, w, ⟨hrest, rfl⟩, rfl⟩
        refine ⟨by simpa using ⟨hv, hrest⟩, ?_⟩
        cases hname : a.name <;>
          simp [Argument.positional, Argument.named, hname]
      · rintro ⟨hall, rfl⟩
        have hrest : ∀ b ∈ rest, b.value.hops ≤ depth :=
          fun b hb => hall b (List.mem_cons_of_mem a hb)
        refine ⟨_, ⟨hall a List.mem_cons_self, rfl⟩, _, ⟨hrest, rfl⟩, ?_⟩
        cases hname : a.name <;>
          simp [Argument.positional, Argument.named, hname]

/-! ## The matcher on items -/

/-- A block opened inside of the open ones. -/
def Matcher.push (b : OpenBlock) (m : Matcher) : Matcher := { m with stack := b :: m.stack }

/-- Steps added one after the other. -/
def Matcher.addAll (ops : List Op) (m : Matcher) : Matcher := ops.foldl (fun m op => m.add op) m

/-- One item of a list with `outer` blocks open around it. -/
def item (names : Names) (outer : Nat) (m : Matcher) : Item → Except Fault Matcher
  | .fragment f => m.fragment names outer f
  | .element name attributes children => do
    let depth := outer + m.stack.length
    let name ← fragments names depth name
    let attributes ← attributes.mapM (attributeOps names depth)
    let children ← nodes names depth {} children
    return m.add (.element name attributes children)

/-- The items of a list with `outer` blocks open around it. -/
def items (names : Names) (outer : Nat) (m : Matcher) (list : List Item) : Except Fault Matcher :=
  list.foldlM (item names outer) m

section Items

variable (names : Names) (outer : Nat) (m : Matcher)

theorem items_fragments
    (fs : List Fragment) :
    items names outer m (fs.map .fragment) = fs.foldlM (Matcher.fragment names outer) m := by
  rw [items, List.foldlM_map]
  rfl

theorem items_ofTree
    (t : Tree) :
    items names outer m (Item.ofTree t) = node names outer m t := by
  cases t with
  | text span fs =>
      rw [node]
      exact items_fragments names outer m fs
  | element span name attributes children =>
      rw [node]
      simp only [items, Item.ofTree, List.foldlM_cons, List.foldlM_nil, bind_pure]
      rfl

theorem items_append
    (front back : List Item) :
    items names outer m (front ++ back) =
      (do items names outer (← items names outer m front) back) := by
  simp only [items, List.foldlM_append]

theorem items_cons
    (i : Item) (rest : List Item) :
    items names outer m (i :: rest) = (do items names outer (← item names outer m i) rest) := by
  simp only [items, List.foldlM_cons]

/-- A name or an attribute value is compiled item by item. -/
theorem fragments_eq_items
    (fs : List Fragment) :
    fragments names outer fs =
      (do (← items names outer {} (fs.map .fragment)).finish) := by
  rw [items_fragments]
  rfl

/-- A list of nodes is compiled item by item. -/
theorem nodes_eq_items
    (trees : List Tree) :
    nodes names outer m trees =
      (do (← items names outer m (Item.ofForest trees)).finish) := by
  induction trees generalizing m with
  | nil =>
      rw [nodes]
      rfl
  | cons t rest ih =>
      rw [nodes, Item.ofForest_cons, items_append, items_ofTree, bind_assoc]
      exact bind_congr fun m' => ih m'

end Items

/-! ## Derivable lists are accepted -/

@[simp] theorem Matcher.length_stack_add
    (op : Op) (m : Matcher) :
    (m.add op).stack.length = m.stack.length := by
  unfold Matcher.add
  split <;> simp_all

theorem Matcher.addAll_cons
    (op : Op) (ops : List Op) (m : Matcher) :
    m.addAll (op :: ops) = (m.add op).addAll ops :=
  rfl

/-- Outside of all blocks, steps are completed at once. -/
theorem Matcher.addAll_of_stack_eq_nil
    (ops done : List Op) :
    Matcher.addAll ops ⟨[], done⟩ = ⟨[], done ++ ops⟩ := by
  induction ops generalizing done with
  | nil =>
      simp [Matcher.addAll]
  | cons op rest ih =>
      rw [Matcher.addAll_cons]
      simpa [Matcher.add] using ih (done ++ [op])

/-- Before an `else`, steps go to the body of the innermost block. -/
theorem Matcher.addAll_push_body
    (ops : List Op) (m : Matcher) (b : OpenBlock)
    (hb : b.inverse = none) :
    (m.push b).addAll ops = m.push { b with body := b.body ++ ops } := by
  induction ops generalizing b with
  | nil =>
      simp [Matcher.addAll]
  | cons op rest ih =>
      have hadd : (m.push b).add op = m.push { b with body := b.body ++ [op] } := by
        simp [Matcher.push, Matcher.add, OpenBlock.add, hb]
      rw [Matcher.addAll_cons, hadd, ih { b with body := b.body ++ [op] } hb]
      simp

/-- Behind an `else`, steps go to the second section of the innermost block. -/
theorem Matcher.addAll_push_inverse
    (ops section₂ : List Op) (offset : Nat) (m : Matcher) (b : OpenBlock)
    (hb : b.inverse = some (offset, section₂)) :
    (m.push b).addAll ops = m.push { b with inverse := some (offset, section₂ ++ ops) } := by
  induction ops generalizing section₂ b with
  | nil =>
      rw [List.append_nil, ← hb]
      rfl
  | cons op rest ih =>
      have hadd : (m.push b).add op =
          m.push { b with inverse := some (offset, section₂ ++ [op]) } := by
        simp [Matcher.push, Matcher.add, OpenBlock.add, hb]
      rw [Matcher.addAll_cons, hadd,
        ih (section₂ ++ [op]) { b with inverse := some (offset, section₂ ++ [op]) } rfl]
      simp

/-- A mark that is a step of its own adds the step. -/
theorem mark_eq_ok_of_compiled
    {names : Names} {outer : Nat} {m : Matcher} {span : Span} {mark : Mark} {op : Op}
    (h : mark.Compiled names (outer + m.stack.length) op) :
    m.mark names outer span mark = .ok (m.add op) := by
  cases h with
  | literal =>
      rfl
  | @interpolation p climbs =>
      have hpath := (checkPath_eq_ok_iff p p.toPath).2 ⟨climbs, rfl⟩
      simp [Matcher.mark, hpath, ok_bind, pure, Except.pure]
  | @inclusion name context parameters known contextClimbs climbs =>
      have hcontext := (optionMapM_eq_ok_iff checkPath_eq_ok_iff context _).2 ⟨contextClimbs, rfl⟩
      have hparameters := (mapM_eq_ok_iff checkNamed_eq_ok_iff parameters _).2 ⟨climbs, rfl⟩
      simp [Matcher.mark, known, hcontext, hparameters, ok_bind, pure, Except.pure]

/-- A mark that opens a block with a known name and arguments that climb no further than they may
opens it. -/
theorem mark_opening_eq_ok
    {names : Names} {outer : Nat} {m : Matcher} {span : Span} {name : Bytes}
    {arguments : List Argument} {synthetic : Bool}
    (known : names.helper name = true)
    (climbs : ∀ a ∈ arguments, a.value.hops ≤ outer + m.stack.length) :
    m.mark names outer span (.opening name arguments synthetic) =
      .ok (m.push ⟨span, name, Argument.positional arguments, Argument.named arguments, synthetic,
        [], none⟩) := by
  have harguments := (checkArguments_eq_ok_iff arguments _).2 ⟨climbs, rfl⟩
  simp [Matcher.mark, Matcher.push, known, harguments, ok_bind, pure, Except.pure]

theorem mark_otherwise_eq_ok
    {names : Names} {outer : Nat} {m : Matcher} {span : Span} {b : OpenBlock}
    (hb : b.inverse = none) :
    (m.push b).mark names outer span .otherwise =
      .ok (m.push { b with inverse := some (span.start, []) }) := by
  simp [Matcher.mark, Matcher.push, hb]

theorem mark_closing_eq_ok
    {names : Names} {outer : Nat} {m : Matcher} {span : Span} (b : OpenBlock) :
    (m.push b).mark names outer span (.closing b.name) = .ok (m.add b.op) := by
  simp [Matcher.mark, Matcher.push]

theorem items_fragment_cons
    {names : Names} {outer : Nat} {m m' : Matcher} {span : Span} {mark : Mark} {rest : List Item}
    (h : m.mark names outer span mark = .ok m') :
    items names outer m (.fragment ⟨span, mark⟩ :: rest) = items names outer m' rest := by
  rw [items_cons, item, Matcher.fragment, h]
  rfl

theorem finish_addAll
    (ops : List Op) :
    (Matcher.addAll ops {}).finish = .ok ops := by
  rw [Matcher.addAll_of_stack_eq_nil]
  rfl

/-- A whole list is accepted when its items are. -/
theorem finish_items_eq_ok
    {names : Names} {depth : Nat} {list : List Item} {ops : List Op}
    (h : items names depth {} list = .ok (Matcher.addAll ops {})) :
    (do (← items names depth {} list).finish) = .ok ops := by
  rw [h, ok_bind, finish_addAll]

/-- The steps that items are compiled to are the ones that the matcher adds for them. -/
theorem items_eq_ok_of_compiled
    {names : Names} {depth : Nat} {list : List Item} {ops : List Op}
    (h : Compiled names depth list ops) :
    ∀ (outer : Nat) (m : Matcher), outer + m.stack.length = depth →
      items names outer m list = .ok (m.addAll ops) := by
  -- `depth` counts the blocks around the list and those that are open in it, so that a section of a
  -- block is the same list with one block more on the stack.
  induction h with
  | nil =>
      intro outer m _
      rfl
  | mark hmark _ ih =>
      intro outer m hdepth
      subst hdepth
      rw [items_fragment_cons (mark_eq_ok_of_compiled hmark), Matcher.addAll_cons]
      exact ih outer (m.add _) (by simp)
  | @element depth name attributes children rest nameOps childOps ops value _ _ _ _ ihName
      ihAttributes ihChildren ih =>
      intro outer m hdepth
      subst hdepth
      let depth := outer + m.stack.length
      have hname : fragments names depth name = .ok nameOps := by
        rw [fragments_eq_items]
        exact finish_items_eq_ok (ihName depth {} rfl)
      have hvalue : ∀ a ∈ attributes, attributeOps names depth a = .ok (a.1, value a.2) := by
        intro a ha
        rw [attributeOps, fragments_eq_items,
          finish_items_eq_ok (ihAttributes a ha depth {} rfl)]
        rfl
      have hchildren : nodes names depth {} children = .ok childOps := by
        rw [nodes_eq_items]
        exact finish_items_eq_ok (ihChildren depth {} rfl)
      rw [items_cons, item, hname, ok_bind, mapM_eq_ok_of_forall hvalue, ok_bind, hchildren,
        Matcher.addAll_cons]
      exact ih outer (m.add _) (by simp)
  | block known climbs _ _ ihBody ih =>
      intro outer m hdepth
      subst hdepth
      rw [items_fragment_cons (mark_opening_eq_ok known climbs), items_append,
        ihBody outer _ (Nat.add_assoc ..).symm, ok_bind, Matcher.addAll_push_body _ _ _ rfl,
        items_fragment_cons (mark_closing_eq_ok _), Matcher.addAll_cons]
      exact ih outer (m.add _) (by simp)
  | blockElse known climbs _ _ _ ihBody ihInverse ih =>
      intro outer m hdepth
      subst hdepth
      rw [items_fragment_cons (mark_opening_eq_ok known climbs), items_append,
        ihBody outer _ (Nat.add_assoc ..).symm, ok_bind, Matcher.addAll_push_body _ _ _ rfl,
        items_fragment_cons (mark_otherwise_eq_ok rfl), items_append,
        ihInverse outer _ (Nat.add_assoc ..).symm, ok_bind,
        Matcher.addAll_push_inverse _ _ _ _ _ rfl,
        items_fragment_cons (mark_closing_eq_ok _), Matcher.addAll_cons]
      exact ih outer (m.add _) (by simp)

/-! ## Accepted lists are derivable -/

/-- What matters of the open blocks for the items to come, innermost first: the name of each, and
whether its `else` has passed. -/
def Matcher.shape (m : Matcher) : List (Bytes × Bool) :=
  m.stack.map fun b => (b.name, b.inverse.isSome)

@[simp] theorem Matcher.shape_add
    (op : Op) (m : Matcher) :
    (m.add op).shape = m.shape := by
  unfold Matcher.add Matcher.shape
  split
  · simp_all
  · next b stack hstack =>
      have hb : ((b.add op).name, (b.add op).inverse.isSome) = (b.name, b.inverse.isSome) := by
        unfold OpenBlock.add
        split <;> simp_all
      simp [hstack, hb]

@[simp] theorem Matcher.length_shape
    (m : Matcher) :
    m.shape.length = m.stack.length := by
  simp [Matcher.shape]

/-- The items of an open block that come before its closing mark, where `divided` says whether its
`else` has passed. -/
inductive Remainder (names : Names) (depth : Nat) : (divided : Bool) → List Item → Prop
  | last {divided : Bool} {list : List Item} :
      Derives names depth list →
      Remainder names depth divided list
  | divide {middle : Span} {body inverse : List Item} :
      Derives names depth body →
      Derives names depth inverse →
      Remainder names depth false (body ++ .fragment ⟨middle, .otherwise⟩ :: inverse)

/-- The items close all open blocks, and what is left over is a list. -/
def Closes (names : Names) (outer : Nat) : (shape : List (Bytes × Bool)) → List Item → Prop
  | [], list => Derives names outer list
  | (name, divided) :: outside, list => ∃ front closing rest,
    list = front ++ .fragment ⟨closing, .closing name⟩ :: rest ∧
      Remainder names (outer + outside.length + 1) divided front ∧ Closes names outer outside rest

theorem Remainder.prepend
    {names : Names} {depth : Nat} {divided : Bool} {front list : List Item}
    (hfront : Derives names depth front)
    (h : Remainder names depth divided list) :
    Remainder names depth divided (front ++ list) := by
  cases h with
  | last hlist =>
      exact .last (hfront.append hlist)
  | divide hbody hinverse =>
      rw [← List.append_assoc]
      exact .divide (hfront.append hbody) hinverse

/-- A list in front of items that close all blocks belongs to the innermost one. -/
theorem Closes.prepend
    {names : Names} {outer : Nat} {shape : List (Bytes × Bool)} {list : List Item}
    (h : Closes names outer shape list)
    (front : List Item)
    (hfront : Derives names (outer + shape.length) front) :
    Closes names outer shape (front ++ list) := by
  cases shape with
  | nil =>
      exact hfront.append h
  | cons open₁ outside =>
      obtain ⟨before, closing, rest, rfl, hbefore, hrest⟩ := h
      exact ⟨front ++ before, closing, rest, by simp, hbefore.prepend hfront, hrest⟩

/-- Items that close a block and all others close the others together with the mark that opens the
block. -/
theorem Closes.of_opening
    {names : Names} {outer : Nat} {shape : List (Bytes × Bool)} {span : Span} {name : Bytes}
    {arguments : List Argument} {synthetic : Bool} {list : List Item}
    (known : names.helper name = true)
    (climbs : ∀ a ∈ arguments, a.value.hops ≤ outer + shape.length)
    (h : Closes names outer ((name, false) :: shape) list) :
    Closes names outer shape (.fragment ⟨span, .opening name arguments synthetic⟩ :: list) := by
  obtain ⟨front, closing, rest, rfl, hfront, hrest⟩ := h
  cases hfront with
  | last hbody =>
      have hblock := hrest.prepend
        (.fragment ⟨span, .opening name arguments synthetic⟩ ::
          (front ++ [.fragment ⟨closing, .closing name⟩]))
        (.block known climbs hbody .nil)
      simpa using hblock
  | @divide middle body inverse hbody hinverse =>
      have hblock := hrest.prepend
        (.fragment ⟨span, .opening name arguments synthetic⟩ ::
          (body ++ .fragment ⟨middle, .otherwise⟩ ::
            (inverse ++ [.fragment ⟨closing, .closing name⟩])))
        (.blockElse known climbs hbody hinverse .nil)
      simpa using hblock

/-- Items that close the second section of a block close the block together with its `else`. -/
theorem Closes.of_otherwise
    {names : Names} {outer : Nat} {shape : List (Bytes × Bool)} {span : Span} {name : Bytes}
    {list : List Item}
    (h : Closes names outer ((name, true) :: shape) list) :
    Closes names outer ((name, false) :: shape) (.fragment ⟨span, .otherwise⟩ :: list) := by
  obtain ⟨front, closing, rest, rfl, hfront, hrest⟩ := h
  cases hfront with
  | last hinverse =>
      exact ⟨.fragment ⟨span, .otherwise⟩ :: front, closing, rest, rfl, .divide .nil hinverse,
        hrest⟩

/-- A mark in front of items that close what is open behind it: they close what is open before it,
together with the mark. -/
theorem Closes.of_mark
    {names : Names} {outer : Nat} {m m' : Matcher} {span : Span} {mark : Mark} {list : List Item}
    (hmark : m.mark names outer span mark = .ok m')
    (h : Closes names outer m'.shape list) :
    Closes names outer m.shape (.fragment ⟨span, mark⟩ :: list) := by
  cases mark with
  | literal s =>
      cases hmark
      rw [Matcher.shape_add] at h
      exact h.prepend [_] (.literal .nil)
  | interpolation p =>
      simp only [Matcher.mark, bind_eq_ok_iff, pure_eq_ok_iff, checkPath_eq_ok_iff] at hmark
      obtain ⟨q, ⟨climbs, rfl⟩, rfl⟩ := hmark
      rw [Matcher.shape_add] at h
      exact h.prepend [_] (.interpolation (by simpa using climbs) .nil)
  | inclusion name context parameters =>
      rw [Matcher.mark] at hmark
      split at hmark
      · next known =>
          simp only [bind_eq_ok_iff, pure_eq_ok_iff,
            optionMapM_eq_ok_iff checkPath_eq_ok_iff, mapM_eq_ok_iff checkNamed_eq_ok_iff] at hmark
          obtain ⟨c, ⟨contextClimbs, rfl⟩, ps, ⟨climbs, rfl⟩, rfl⟩ := hmark
          rw [Matcher.shape_add] at h
          exact h.prepend [_]
            (.inclusion known (by simpa using contextClimbs) (by simpa using climbs) .nil)
      · cases hmark
  | opening name arguments synthetic =>
      rw [Matcher.mark] at hmark
      split at hmark
      · next known =>
          simp only [bind_eq_ok_iff, pure_eq_ok_iff, checkArguments_eq_ok_iff] at hmark
          obtain ⟨_, ⟨climbs, rfl⟩, rfl⟩ := hmark
          exact Closes.of_opening known (by simpa using climbs) h
      · cases hmark
  | otherwise =>
      rw [Matcher.mark] at hmark
      split at hmark
      · cases hmark
      · next b stack hstack =>
          split at hmark
          · cases hmark
          · next hb =>
              cases hmark
              have hshape : m.shape = (b.name, false) :: Matcher.shape ⟨stack, m.ops⟩ := by
                simp [Matcher.shape, hstack, hb]
              rw [hshape]
              exact Closes.of_otherwise h
  | closing name =>
      rw [Matcher.mark] at hmark
      split at hmark
      · cases hmark
      · next b stack hstack =>
          split at hmark
          · next hname =>
              cases hmark
              rw [Matcher.shape_add] at h
              have hshape : m.shape = (name, b.inverse.isSome) ::
                  Matcher.shape ⟨stack, m.ops⟩ := by
                simp [Matcher.shape, hstack, hname]
              rw [hshape]
              exact ⟨[], span, list, rfl, .last .nil, h⟩
          · cases hmark

/-- An item that is an element is derivable wherever it is accepted. -/
def ElementDerives (names : Names) : Item → Prop
  | .fragment _ => True
  | .element name attributes children => ∀ (outer : Nat) (m m' : Matcher),
    item names outer m (.element name attributes children) = .ok m' →
      m'.shape = m.shape ∧
        Derives names (outer + m.stack.length) [.element name attributes children]

/-- A run over items that ends with no open block closes all blocks that are open before it. -/
theorem closes_of_items
    {names : Names} {outer : Nat} {m m' : Matcher} {list : List Item}
    (helements : ∀ i ∈ list, ElementDerives names i)
    (h : items names outer m list = .ok m')
    (hstack : m'.stack = []) :
    Closes names outer m.shape list := by
  -- The blocks that are open behind an item are known to be closed; the item says how the ones
  -- before it differ.
  induction list generalizing m with
  | nil =>
      cases h
      have hshape : m'.shape = [] := by simp [Matcher.shape, hstack]
      rw [hshape]
      exact Derives.nil
  | cons i rest ih =>
      rw [items_cons, bind_eq_ok_iff] at h
      obtain ⟨m₁, hi, hrest⟩ := h
      have hcloses := ih (fun j hj => helements j (List.mem_cons_of_mem i hj)) hrest
      cases i with
      | fragment f =>
          exact hcloses.of_mark (mapError_eq_ok_iff.1 hi)
      | element name attributes children =>
          obtain ⟨hshape, hderives⟩ := helements _ List.mem_cons_self outer m m₁ hi
          rw [hshape] at hcloses
          exact hcloses.prepend [_] (by simpa using hderives)

/-- A whole list that is accepted is derivable. -/
theorem derives_of_finish
    {names : Names} {depth : Nat} {list : List Item} {ops : List Op}
    (helements : ∀ i ∈ list, ElementDerives names i)
    (h : (do (← items names depth {} list).finish) = .ok ops) :
    Derives names depth list := by
  rw [bind_eq_ok_iff] at h
  obtain ⟨m, hitems, hfinish⟩ := h
  have hstack : m.stack = [] := by
    unfold Matcher.finish at hfinish
    split at hfinish
    · assumption
    · cases hfinish
  exact closes_of_items helements hitems hstack

/-- The fragments of a name or an attribute value that is accepted are derivable. -/
theorem derives_of_fragments
    {names : Names} {depth : Nat} {fs : List Fragment} {ops : List Op}
    (h : fragments names depth fs = .ok ops) :
    Derives names depth (fs.map .fragment) := by
  rw [fragments_eq_items] at h
  refine derives_of_finish ?_ h
  intro i hi
  obtain ⟨f, _, rfl⟩ := List.mem_map.1 hi
  trivial

/-- An element is derivable when its name, its attribute values and its children are. -/
theorem elementDerives_of_children
    {names : Names} {name : List Fragment} {attributes : List (Bytes × List Fragment)}
    {children : List Tree}
    (hchildren : ∀ i ∈ Item.ofForest children, ElementDerives names i) :
    ElementDerives names (.element name attributes children) := by
  intro outer m m' h
  simp only [item, bind_eq_ok_iff, pure_eq_ok_iff] at h
  obtain ⟨nameOps, hname, values, hvalues, childOps, hnodes, rfl⟩ := h
  rw [nodes_eq_items] at hnodes
  have hattributes : ∀ a ∈ attributes,
      Derives names (outer + m.stack.length) (a.2.map .fragment) := by
    intro a ha
    obtain ⟨v, hv⟩ := ok_of_mem_mapM hvalues ha
    simp only [attributeOps, bind_eq_ok_iff] at hv
    obtain ⟨valueOps, hvalue, _⟩ := hv
    exact derives_of_fragments hvalue
  exact ⟨Matcher.shape_add _ _, .element (derives_of_fragments hname) hattributes
    (derives_of_finish hchildren hnodes) .nil⟩

mutual

/-- The elements of a node are derivable wherever they are accepted. -/
theorem elementDerives_ofTree
    (names : Names) : ∀ t : Tree, ∀ i ∈ Item.ofTree t, ElementDerives names i
  | .text span fs => by
      intro i hi
      obtain ⟨f, _, rfl⟩ := List.mem_map.1 hi
      trivial
  | .element span name attributes children => by
      intro i hi
      cases List.mem_singleton.1 hi
      exact elementDerives_of_children (elementDerives_ofForest names children)

/-- The elements of the nodes of a list are derivable wherever they are accepted. -/
theorem elementDerives_ofForest
    (names : Names) : ∀ trees : List Tree, ∀ i ∈ Item.ofForest trees, ElementDerives names i
  | [] => by
      intro i hi
      cases hi
  | t :: rest => by
      intro i hi
      rcases List.mem_append.1 hi with ht | hrest
      · exact elementDerives_ofTree names t i ht
      · exact elementDerives_ofForest names rest i hrest

end

/-! ## The program of a forest -/

/-- Compiling a list of nodes succeeds exactly along the grammar. -/
theorem nodes_eq_ok_iff
    {names : Names} {depth : Nat} {trees : List Tree} {ops : List Op} :
    nodes names depth {} trees = .ok ops ↔ Compiled names depth (Item.ofForest trees) ops := by
  rw [nodes_eq_items]
  constructor
  · intro h
    have hderives := derives_of_finish (elementDerives_ofForest names trees) h
    obtain ⟨ops', hops'⟩ := hderives.compiled
    -- The derivation has some steps; the matcher gives them, so they are the ones given.
    have hsame := finish_items_eq_ok (items_eq_ok_of_compiled hops' depth {} rfl)
    rw [h] at hsame
    cases hsame
    exact hops'
  · intro h
    exact finish_items_eq_ok (items_eq_ok_of_compiled h depth {} rfl)

end Compile

/-- Block matching is exact.  A forest is accepted if and only if its lists are derivable from the
grammar of blocks, and then the program writes back out as the forest: every mark, element and
argument stands where the source has it. -/
theorem forest_accepted_iff_derives_and_markers_eq
    (names : Names)
    (trees : List Tree) :
    ((∃ ops, Compile.forest names trees = .ok ops) ↔ Derives names 0 (Item.ofForest trees)) ∧
      ∀ ops, Compile.forest names trees = .ok ops →
        Op.allMarkers ops = Tree.forestMarkers trees := by
  refine ⟨⟨?_, ?_⟩, ?_⟩
  · rintro ⟨ops, h⟩
    rw [Compile.forest, Compile.nodes_eq_items] at h
    exact Compile.derives_of_finish (Compile.elementDerives_ofForest names trees) h
  · intro h
    obtain ⟨ops, hops⟩ := h.compiled
    exact ⟨ops, Compile.nodes_eq_ok_iff.2 hops⟩
  · intro ops h
    have hcompiled := Compile.nodes_eq_ok_iff.1 h
    rw [hcompiled.allMarkers_eq, Item.map_marker_ofForest]

/-- An element inside of a block with an `else`, whose path climbs out of the block. -/
def nestedSample : List Tree :=
  [.text ⟨0, 16⟩ [⟨⟨0, 16⟩, .opening (utf8 "each") [⟨none, .path (.dotted [utf8 "items"])⟩] false⟩],
   .element ⟨16, 40⟩ [⟨⟨16, 20⟩, .literal (utf8 "li")⟩] []
     [.text ⟨20, 35⟩ [⟨⟨20, 35⟩, .interpolation (.parent 1 (.dotted [utf8 "title"]))⟩]],
   .text ⟨40, 61⟩ [⟨⟨40, 48⟩, .otherwise⟩, ⟨⟨48, 52⟩, .literal (utf8 "none")⟩,
     ⟨⟨52, 61⟩, .closing (utf8 "each")⟩]]

/-- The sample is accepted, derivable and written back out. -/
theorem nestedSample_markers :
    Derives Names.any 0 (Item.ofForest nestedSample) ∧
      ∃ ops, Compile.forest Names.any nestedSample = .ok ops ∧
        Op.allMarkers ops = Tree.forestMarkers nestedSample := by
  obtain ⟨ops, hops⟩ : ∃ ops, Compile.forest Names.any nestedSample = .ok ops := ⟨_, rfl⟩
  have hexact := forest_accepted_iff_derives_and_markers_eq Names.any nestedSample
  exact ⟨hexact.1.1 ⟨ops, hops⟩, ops, hops, hexact.2 ops hops⟩

end Stencil
