import Stencil.Engine
import Stencil.Proofs.Checks
import Stencil.Proofs.Compile.Forest
import Stencil.Proofs.Compile.Matching
import Stencil.Proofs.Markup.Written

/-!
# Written forests are templates of themselves

The markup of a forest, read as a template that keeps white space, renders to the forest again.

The markup is read token by token.  Reading a written node adds one tree to the innermost open
element, whatever is open and whatever follows; by induction over the forest this gives the trees of
the whole source.  Each tree is compiled to the constant step of its node, and running constant steps
gives the nodes back.

Result: `render_compile_html`.
-/

namespace Stencil

/-! ## Forests that can be read back -/

/-- A text in which no expression begins, without NUL and carriage return. -/
structure Text.Readable (s : Bytes) : Prop where
  literal : Bytes.occurs Markup.opener s = false
  zero : 0 ∉ s
  carriageReturn : Ascii.carriageReturn ∉ s

instance (s : Bytes) : Decidable (Text.Readable s) :=
  decidable_of_iff
    (Bytes.occurs Markup.opener s = false ∧ 0 ∉ s ∧ Ascii.carriageReturn ∉ s)
    ⟨fun ⟨literal, zero, carriageReturn⟩ => ⟨literal, zero, carriageReturn⟩,
      fun h => ⟨h.literal, h.zero, h.carriageReturn⟩⟩

namespace Node

/-- Whether a node is a text. -/
def isText : Node → Bool
  | .text _ => true
  | .raw _ | .element .. | .absent | .reference => false

/-- The name and the attributes of an element that is read back as it is written. -/
structure RegularTag (tag : Bytes) (attributes : List (Bytes × Bytes)) : Prop where
  name : Markup.isPlainName tag = true
  notRaw : tag ∉ Markup.rawNames
  common : tag ∉ ["param", "command", "keygen"].map utf8
  keys : (attributes.map Prod.fst).Nodup
  readable : ∀ a ∈ attributes, Markup.isPlainName a.1 = true ∧ Text.Readable a.2

instance (tag : Bytes) (attributes : List (Bytes × Bytes)) : Decidable (RegularTag tag attributes) :=
  decidable_of_iff
    (Markup.isPlainName tag = true ∧ tag ∉ Markup.rawNames ∧
      tag ∉ ["param", "command", "keygen"].map utf8 ∧ (attributes.map Prod.fst).Nodup ∧
      ∀ a ∈ attributes, Markup.isPlainName a.1 = true ∧ Text.Readable a.2)
    ⟨fun ⟨name, notRaw, common, keys, readable⟩ => ⟨name, notRaw, common, keys, readable⟩,
      fun h => ⟨h.name, h.notRaw, h.common, h.keys, h.readable⟩⟩

mutual

/-- A text or an element that is read back as it is written. -/
def Regular : Node → Prop
  | .text s => s ≠ [] ∧ Text.Readable s
  | .element tag attributes children =>
    RegularTag tag attributes ∧ (tag ∈ voidTags → children = []) ∧ RegularForest children
  | .raw _ | .absent | .reference => False

/-- Nodes that are read back as they are written, no two texts next to each other. -/
def RegularForest : List Node → Prop
  | [] => True
  | n :: rest => Regular n ∧ (n.isText → ∀ m ∈ rest.head?, m.isText = false) ∧ RegularForest rest

end

end Node

/-! ## Constant steps -/

/-- The steps of a literal text; there are none for the empty one. -/
def Op.ofText (t : Bytes) : List Op := if t.isEmpty then [] else [.literal t]

theorem Op.renderAll_ofText
    (l : Linkage) (t : Bytes) (s : Scope) (r : Run) :
    Node.textOf (Op.renderAll l (Op.ofText t) s r).1 = t ∧
      (Op.renderAll l (Op.ofText t) s r).2 = r := by
  cases t with
  | nil =>
      exact ⟨rfl, rfl⟩
  | cons b t =>
      simp [Op.ofText, Op.renderAll, Op.render, Render.append, Render.nothing, Node.textOf,
        Node.content]

namespace Node

mutual

/-- The step that renders to a text or an element whatever the data. -/
def constant : Node → Op
  | .text s => .literal s
  | .element tag attributes children =>
    .element (Op.ofText tag) (attributes.map fun a => (a.1, Op.ofText a.2)) (constants children)
  | .raw _ | .absent | .reference => .unknown

/-- The steps that render to a forest whatever the data. -/
def constants : List Node → List Op
  | [] => []
  | n :: rest => constant n :: constants rest

end

theorem renderAttributes_ofText
    (l : Linkage) (attributes : List (Bytes × Bytes)) (s : Scope) (r : Run) :
    Op.renderAttributes l (attributes.map fun a => (a.1, Op.ofText a.2)) s r = (attributes, r) := by
  induction attributes with
  | nil =>
      rfl
  | cons a rest ih =>
      obtain ⟨htext, hrun⟩ := Op.renderAll_ofText l a.2 s r
      simp only [List.map_cons, Op.renderAttributes, htext, hrun, ih]

mutual

theorem render_constant
    (l : Linkage) :
    ∀ n : Node, n.Regular → ∀ (s : Scope) (r : Run), Op.render l n.constant s r = ([n], r)
  | .text t, _, s, r => by
      simp only [constant, Op.render]
  | .element tag attributes children, h, s, r => by
      obtain ⟨-, -, hchildren⟩ := h
      obtain ⟨htag, hrun⟩ := Op.renderAll_ofText l tag s r
      have hrest := renderAll_constants l children hchildren s r
      simp only [constant, Op.render, renderAttributes_ofText, htag, hrun, hrest]

theorem renderAll_constants
    (l : Linkage) :
    ∀ nodes : List Node, RegularForest nodes →
      ∀ (s : Scope) (r : Run), Op.renderAll l (constants nodes) s r = (nodes, r)
  | [], _, s, r => by
      simp only [constants, Op.renderAll, Render.nothing]
  | n :: rest, h, s, r => by
      obtain ⟨hnode, -, hforest⟩ := h
      have hfirst := render_constant l n hnode s r
      have hrest := renderAll_constants l rest hforest s r
      simp only [constants, Op.renderAll, Render.append, hfirst, hrest, List.singleton_append]

end

mutual

theorem isKnown_constant :
    ∀ n : Node, n.Regular → n.constant.isKnown = true
  | .text t, _ => by
      simp only [constant, Op.isKnown]
  | .element tag attributes children, h => by
      obtain ⟨-, -, hchildren⟩ := h
      have htext : ∀ t, Op.allKnown (Op.ofText t) = true := by
        intro t
        cases t <;> rfl
      have hattributes :
          Op.attributesKnown (attributes.map fun a => (a.1, Op.ofText a.2)) = true := by
        induction attributes with
        | nil =>
            rfl
        | cons a rest ih =>
            simp only [List.map_cons, Op.attributesKnown, htext, ih, Bool.and_self]
      simp only [constant, Op.isKnown, htext, hattributes, allKnown_constants children hchildren,
        Bool.and_self]

theorem allKnown_constants :
    ∀ nodes : List Node, RegularForest nodes → Op.allKnown (constants nodes) = true
  | [], _ => by
      simp only [constants, Op.allKnown]
  | n :: rest, h => by
      obtain ⟨hnode, -, hforest⟩ := h
      simp only [constants, Op.allKnown, isKnown_constant n hnode, allKnown_constants rest hforest,
        Bool.and_self]

end

/-- Running the constant steps of a forest gives the forest. -/
theorem render_constants
    {nodes : List Node}
    (h : RegularForest nodes)
    (reg : Registry) (bound fuel : Nat) (data : Value) :
    Stencil.render reg bound fuel (constants nodes) data = .ok nodes := by
  simp only [Stencil.render, allKnown_constants nodes h, renderAll_constants _ nodes h, if_true,
    outcome]

end Node

/-! ## Trees of written nodes -/

/-- A tree of a template is compiled to a single step, whatever blocks are open around it. -/
def Tree.CompilesTo (t : Tree) (op : Op) : Prop :=
  ∀ names depth items ops, Compiled names depth items ops →
    Compiled names depth (Item.ofTree t ++ items) (op :: ops)

theorem Tree.compilesTo_text
    (span : Span) (position : Span) (s : Bytes) :
    (Tree.text span [⟨position, .literal s⟩]).CompilesTo (.literal s) :=
  fun _ _ _ _ h => .mark .literal h

/-- The fragments of a literal text; there are none for the empty one. -/
def Fragment.ofText (span : Span) (t : Bytes) : List Fragment :=
  if t.isEmpty then [] else [⟨span, .literal t⟩]

theorem Fragment.compiled_ofText
    (names : Names) (depth : Nat) (span : Span) (t : Bytes) :
    Compiled names depth ((Fragment.ofText span t).map .fragment) (Op.ofText t) := by
  cases t with
  | nil =>
      exact .nil
  | cons b t =>
      exact .mark .literal .nil

/-- The steps of fragments that are literals. -/
def Fragment.literalOps (fs : List Fragment) : List Op :=
  fs.map fun f => match f.mark with
    | .literal s => .literal s
    | _ => .unknown

theorem Fragment.literalOps_ofText
    (span : Span) (t : Bytes) :
    Fragment.literalOps (Fragment.ofText span t) = Op.ofText t := by
  cases t <;> rfl

theorem Tree.compilesTo_element
    (span position : Span) (tag : Bytes) (attributes : List (Bytes × Bytes))
    {children : List Tree} {ops : List Op}
    (hchildren : ∀ names depth, Compiled names depth (Item.ofForest children) ops) :
    (Tree.element span (Fragment.ofText position tag)
      (attributes.map fun a => (a.1, Fragment.ofText position a.2)) children).CompilesTo
        (.element (Op.ofText tag) (attributes.map fun a => (a.1, Op.ofText a.2)) ops) := by
  intro names depth items more hmore
  have hvalues : (attributes.map fun a => (a.1, Op.ofText a.2)) =
      (attributes.map fun a => (a.1, Fragment.ofText position a.2)).map
        fun a => (a.1, Fragment.literalOps a.2) := by
    simp [Fragment.literalOps_ofText]
  rw [hvalues]
  refine .element (Fragment.compiled_ofText names depth position tag) (fun a ha => ?_)
    (hchildren names depth) hmore
  obtain ⟨b, _, rfl⟩ := List.mem_map.1 ha
  rw [Fragment.literalOps_ofText]
  exact Fragment.compiled_ofText names depth position b.2

/-! ## Reading written markup -/

namespace Tree
namespace Builder

/-- Reads markup from an offset on, with some elements open already. -/
def readFrom (r : Reading) (offset : Nat) (b : Builder) (s : Bytes) : Except Fault Builder :=
  (Markup.eventsFrom offset (Markup.tokens none s)).foldlM (step r) b

theorem readFrom_nil
    (r : Reading) (offset : Nat) (b : Builder) :
    readFrom r offset b [] = .ok b := by
  have htokens : Markup.tokens none [] = [] := by
    rw [Markup.tokens]
    rfl
  rw [readFrom, htokens]
  rfl

/-- A token at the front is read first, and then what follows it. -/
theorem readFrom_token
    {front rest : Bytes} {t : Markup.Token}
    (h : Markup.readToken? (front ++ rest) = some (t, rest))
    (hraw : t.opensRaw = none)
    (r : Reading) (offset : Nat) (b : Builder) :
    readFrom r offset b (front ++ rest) =
      (t.events front offset).foldlM (step r) b >>= fun b =>
        readFrom r (offset + front.length) b rest := by
  have htokens : Markup.tokens none (front ++ rest) = (t, front) :: Markup.tokens none rest := by
    rw [Markup.tokens]
    split
    · next hnone =>
        rw [Markup.nextToken?, h] at hnone
        cases hnone
    · next t' rest' hsome =>
        rw [Markup.nextToken?, h] at hsome
        cases hsome
        rw [hraw, List.length_append, Nat.add_sub_cancel, List.take_left]
  rw [readFrom, htokens, Markup.eventsFrom, List.foldlM_append]
  rfl

section Step

variable {r : Reading} (hkeep : r.keepWhitespace = true)

include hkeep in
theorem step_text
    {s : Bytes}
    (hs : s ≠ [])
    (hreadable : Text.Readable s)
    (b : Builder) (span : Span) :
    ∃ position, step r b (.text (Text.escapeHtml s) span) =
      .ok (b.attach (.text span [⟨position, .literal s⟩])) := by
  have hread := Fragment.read_of_not_occurs r.isHelper (.text span.start)
    (Text.occurs_escapeHtml hreadable.literal)
  have hdecode : Site.literal (.text span.start) (Text.escapeHtml s) = s :=
    Text.decode_escapeHtml .text hreadable.zero
  have hempty : (Text.escapeHtml s).isEmpty = false := by
    simpa using Text.escapeHtml_ne_nil hs
  simp only [hempty, hdecode, Bool.false_eq_true, if_false] at hread
  refine ⟨(Site.text span.start).span 0 (Text.escapeHtml s).length, ?_⟩
  simp only [step, readText, hkeep, Bool.not_true, Bool.false_and, Bool.false_eq_true, if_false,
    if_true, hread, ok_bind]
  rfl

/-- An element whose start tag was just read. -/
def opened (span : Span) (tag : Bytes) (attributes : List (Bytes × Bytes)) : Open :=
  ⟨span, Fragment.ofText span tag, attributes.map fun a => (a.1, Fragment.ofText span a.2), []⟩

include hkeep in
theorem step_openTag
    {tag : Bytes} {attributes : List (Bytes × Bytes)}
    (htag : Markup.isPlainName tag = true)
    (hattributes : ∀ a ∈ attributes, Text.Readable a.2)
    (b : Builder) (span : Span) :
    step r b (.openTag tag (attributes.map fun a => ⟨a.1, a.2⟩) span) =
      .ok { b with stack := opened span tag attributes :: b.stack } := by
  have hread : ∀ t, Bytes.occurs Markup.opener t = false →
      Fragment.read r.isHelper (.tag span) t = .ok (Fragment.ofText span t) := fun t ht =>
    Fragment.read_of_not_occurs r.isHelper (.tag span) ht
  have hvalues : (attributes.map fun a => (⟨a.1, a.2⟩ : Markup.Attribute)).mapM
      (readAttribute r span) =
        .ok (attributes.map fun a => (a.1, Fragment.ofText span a.2)) := by
    rw [List.mapM_map]
    refine mapM_eq_ok_of_forall fun a ha => ?_
    simp only [Function.comp_apply, readAttribute, hread a.2 (hattributes a ha).literal, hkeep,
      if_true, ok_bind]
    rfl
  simp only [step, hread tag (Markup.occurs_opener_of_isPlainName htag), hvalues, ok_bind]
  rfl

end Step

/-- A source in front of others is read as a single tree, which is compiled to a given step. -/
def Adds (r : Reading) (source rest : Bytes) (op : Op) : Prop :=
  ∀ offset b, ∃ t offset', t.CompilesTo op ∧
    readFrom r offset b (source ++ rest) = readFrom r offset' (b.attach t) rest

/-- A source in front of others is read as trees, which are compiled to given steps. -/
def AddsAll (r : Reading) (source rest : Bytes) (ops : List Op) : Prop :=
  ∀ offset b, ∃ trees offset',
    (∀ names depth, Compiled names depth (Item.ofForest trees) ops) ∧
      readFrom r offset b (source ++ rest) = readFrom r offset' (b.attachAll trees) rest

theorem readFrom_endTag
    (r : Reading) {tag : Bytes}
    (htag : Markup.isPlainName tag = true)
    (rest : Bytes) (offset : Nat) (b : Builder) :
    ∃ offset', readFrom r offset b (endTag tag ++ rest) =
      readFrom r offset' (b.close offset') rest := by
  refine ⟨offset + (endTag tag).length, ?_⟩
  rw [readFrom_token (Markup.readToken?_endTag htag rest) rfl]
  rfl

section Written

variable {r : Reading} (hkeep : r.keepWhitespace = true)

include hkeep in
theorem adds_text
    {s rest : Bytes}
    (hs : s ≠ [])
    (hreadable : Text.Readable s)
    (hrest : Markup.Boundary rest) :
    Adds r (Text.escapeHtml s) rest (.literal s) := by
  intro offset b
  have hless : Ascii.less ∉ Text.escapeHtml s := fun h => (Text.inert_escapeHtml s _ h).1 rfl
  have htoken := Markup.readToken?_text (Text.escapeHtml_ne_nil hs) hless hrest
  obtain ⟨position, hstep⟩ := step_text hkeep hs hreadable b
    ⟨offset, offset + (Text.escapeHtml s).length⟩
  refine ⟨.text ⟨offset, offset + (Text.escapeHtml s).length⟩ [⟨position, .literal s⟩],
    offset + (Text.escapeHtml s).length, compilesTo_text _ position s, ?_⟩
  rw [readFrom_token htoken rfl]
  simp only [Markup.Token.events, List.foldlM_cons, hstep, ok_bind, List.foldlM_nil]
  rfl

variable {tag : Bytes} {attributes : List (Bytes × Bytes)} 
  (h : Node.RegularTag tag attributes)

include h in
/-- The elements that are written without content are the ones that are read so. -/
theorem contains_voidNames :
    Markup.voidNames.contains (tag.map Ascii.toLower) = Node.voidTags.contains tag := by
  have hvoid : ∀ t ∈ Node.voidTags, t ∈ ["param", "command", "keygen"].map utf8 ∨
      t ∈ Markup.voidNames := by
    decide
  have hnames : ∀ t ∈ Markup.voidNames, t ∈ Node.voidTags := by
    decide
  rw [Markup.map_toLower_of_isPlainName h.name, Bool.eq_iff_iff, List.contains_iff_mem,
    List.contains_iff_mem]
  exact ⟨hnames tag, fun hmem => (hvoid tag hmem).resolve_left h.common⟩

include hkeep h in
/-- A written start tag opens an element, which is closed at once if it is void. -/
theorem readFrom_startTag
    (rest : Bytes) (offset : Nat) (b : Builder) :
    ∃ span offset', readFrom r offset b (startTag tag (Node.escapedAttributes attributes) ++ rest) =
      readFrom r offset'
        (if Node.voidTags.contains tag then b.attach ((opened span tag attributes).close offset')
          else { b with stack := opened span tag attributes :: b.stack }) rest := by
  have hquote : ∀ a ∈ Node.escapedAttributes attributes,
      Markup.isPlainName a.1 = true ∧ Ascii.quote ∉ a.2 := by
    intro a ha
    obtain ⟨c, hc, rfl⟩ := List.mem_map.1 ha
    exact ⟨(h.readable c hc).1, fun hmem => (Text.inert_escapeHtml c.2 _ hmem).2.2.1 rfl⟩
  have htoken := Markup.readToken?_startTag h.name hquote rest
  have hraw : Markup.Token.opensRaw (.startTag tag ((Node.escapedAttributes attributes).map
      fun a => ⟨a.1, a.2⟩) false) = none := by
    simp only [Markup.Token.opensRaw, Markup.map_toLower_of_isPlainName h.name,
      List.find?_eq_none, beq_iff_eq]
    rintro name hname rfl
    exact h.notRaw hname
  have hmeaning : ((Node.escapedAttributes attributes).map fun a =>
      (⟨a.1, a.2⟩ : Markup.Attribute)).map Markup.Attribute.meaning =
        attributes.map fun a => ⟨a.1, a.2⟩ := by
    simp only [Node.escapedAttributes, List.map_map]
    refine List.map_congr_left fun a ha => ?_
    obtain ⟨hkey, hvalue⟩ := h.readable a ha
    exact Markup.meaning_escaped hkey hvalue.zero hvalue.carriageReturn
  have hstep := step_openTag hkeep h.name (fun a ha => (h.readable a ha).2) b
    ⟨offset, offset + (startTag tag (Node.escapedAttributes attributes)).length⟩
  refine ⟨⟨offset, offset + (startTag tag (Node.escapedAttributes attributes)).length⟩,
    offset + (startTag tag (Node.escapedAttributes attributes)).length, ?_⟩
  rw [readFrom_token htoken hraw]
  simp only [Markup.Token.events, Bool.false_or, contains_voidNames h, hmeaning,
    Markup.tagName_of_isPlainName h.name]
  split
  · simp only [List.foldlM_cons, hstep, ok_bind]
    rfl
  · simp only [List.foldlM_cons, hstep, ok_bind]
    rfl

include hkeep h in
theorem adds_void
    (hvoid : Node.voidTags.contains tag = true)
    (rest : Bytes) :
    Adds r (startTag tag (Node.escapedAttributes attributes)) rest
      (.element (Op.ofText tag) (attributes.map fun a => (a.1, Op.ofText a.2)) []) := by
  intro offset b
  obtain ⟨span, offset', hread⟩ := readFrom_startTag hkeep h rest offset b
  rw [if_pos hvoid] at hread
  exact ⟨_, offset', compilesTo_element _ span tag attributes fun _ _ => .nil, hread⟩

include hkeep h in
/-- An element is read from its start tag, its content and its end tag. -/
theorem adds_element
    (hvoid : Node.voidTags.contains tag = false)
    {inner rest : Bytes} {ops : List Op}
    (hinner : AddsAll r inner (endTag tag ++ rest) ops) :
    Adds r (startTag tag (Node.escapedAttributes attributes) ++ (inner ++ endTag tag)) rest
      (.element (Op.ofText tag) (attributes.map fun a => (a.1, Op.ofText a.2)) ops) := by
  intro offset b
  obtain ⟨span, first, hstart⟩ := readFrom_startTag hkeep h (inner ++ (endTag tag ++ rest)) offset b
  rw [hvoid, if_neg Bool.false_ne_true] at hstart
  obtain ⟨trees, second, htrees, hcontent⟩ := hinner first
    { b with stack := opened span tag attributes :: b.stack }
  rw [attachAll_open] at hcontent
  obtain ⟨third, hend⟩ := readFrom_endTag r h.name rest second
    { b with stack := { opened span tag attributes with children := trees } :: b.stack }
  refine ⟨_, third, compilesTo_element ⟨span.start, third⟩ span tag attributes htrees, ?_⟩
  calc readFrom r offset b
        (startTag tag (Node.escapedAttributes attributes) ++ (inner ++ endTag tag) ++ rest)
      = readFrom r offset b (startTag tag (Node.escapedAttributes attributes) ++
          (inner ++ (endTag tag ++ rest))) := by simp only [List.append_assoc]
    _ = readFrom r second
          { b with stack := { opened span tag attributes with children := trees } :: b.stack }
          (endTag tag ++ rest) := hstart.trans hcontent
    _ = _ := hend

end Written

end Builder
end Tree

namespace Node

open Stencil.Tree (Builder)

/-- What follows a text in a regular forest ends the text. -/
theorem boundary_forestHtml
    {nodes : List Node}
    (h : RegularForest nodes)
    (hhead : ∀ m ∈ nodes.head?, m.isText = false)
    {rest : Bytes}
    (hrest : Markup.Boundary rest) :
    Markup.Boundary (forestHtml nodes ++ rest) := by
  cases nodes with
  | nil =>
      exact hrest
  | cons n more =>
      obtain ⟨hnode, -, -⟩ := h
      have htext := hhead n rfl
      cases n with
      | text =>
          cases htext
      | raw | absent | reference =>
          exact hnode.elim
      | element tag attributes children =>
          obtain ⟨b, name, rfl, hletter⟩ := Markup.exists_cons_of_isPlainName hnode.1.name
          refine Or.inr ?_
          rw [forestHtml, toHtml_element]
          change Markup.startsMarkup (Ascii.less :: b :: _) = true
          rw [Markup.startsMarkup_less, hletter, Bool.true_or, Bool.true_or, Bool.true_or]

section Reading

variable {r : Reading} (hkeep : r.keepWhitespace = true)

mutual

/-- A regular node is read as one tree, which is compiled to its constant step. -/
theorem adds_toHtml
    (hkeep : r.keepWhitespace = true) :
    ∀ n : Node, n.Regular → ∀ rest, (n.isText → Markup.Boundary rest) →
      Builder.Adds r n.toHtml rest n.constant
  | .text s, h, rest, hrest => by
      simp only [toHtml, constant]
      exact Builder.adds_text hkeep h.1 h.2 (hrest rfl)
  | .element tag attributes children, h, rest, hrest => by
      obtain ⟨htag, hvoid, hchildren⟩ := h
      rw [toHtml_element, constant]
      cases hcontains : voidTags.contains tag with
      | true =>
          obtain rfl := hvoid (List.contains_iff_mem.1 hcontains)
          simp only [if_true, List.append_nil, constants]
          exact Builder.adds_void hkeep htag hcontains rest
      | false =>
          simp only [Bool.false_eq_true, if_false]
          have hinner := addsAll_forestHtml hkeep children hchildren (endTag tag ++ rest) (Or.inr rfl)
          exact Builder.adds_element hkeep htag hcontains hinner
  | .raw _, h, _, _ => h.elim
  | .absent, h, _, _ => h.elim
  | .reference, h, _, _ => h.elim

/-- A regular forest is read as trees, which are compiled to its constant steps. -/
theorem addsAll_forestHtml
    (hkeep : r.keepWhitespace = true) :
    ∀ nodes : List Node, RegularForest nodes → ∀ rest, Markup.Boundary rest →
      Builder.AddsAll r (forestHtml nodes) rest (constants nodes)
  | [], _, rest, _ => by
      intro offset b
      refine ⟨[], offset, fun _ _ => ?_, ?_⟩
      · simp only [constants]
        exact .nil
      · simp only [forestHtml]
        rfl
  | n :: more, h, rest, hrest => by
      intro offset b
      obtain ⟨hnode, hnext, hmore⟩ := h
      have hboundary := fun htext => boundary_forestHtml hmore (hnext htext) hrest
      obtain ⟨t, second, ht, hfirst⟩ := adds_toHtml hkeep n hnode (forestHtml more ++ rest) hboundary
        offset b
      obtain ⟨trees, third, htrees, hlast⟩ := addsAll_forestHtml hkeep more hmore rest hrest second
        (b.attach t)
      refine ⟨t :: trees, third, fun names depth => ?_, ?_⟩
      · simp only [constants]
        exact ht names depth _ _ (htrees names depth)
      · rw [forestHtml, List.append_assoc]
        exact hfirst.trans hlast

end

include hkeep in
/-- The markup of a regular forest is compiled to the constant steps of the forest. -/
theorem compile_forestHtml
    {nodes : List Node}
    (h : RegularForest nodes)
    (names : Names) (name : Bytes) :
    Stencil.compile r names name (forestHtml nodes) = .ok ⟨name, constants nodes⟩ := by
  obtain ⟨trees, offset, htrees, hread⟩ := addsAll_forestHtml hkeep nodes h [] (Or.inl rfl) 0
    Builder.empty
  have hroots : Builder.attachAll trees Builder.empty = ⟨[], trees⟩ :=
    Builder.attachAll_roots trees []
  rw [List.append_nil, Builder.readFrom_nil, hroots] at hread
  have htree : Tree.read r (forestHtml nodes) = .ok trees := by
    change Builder.readFrom r 0 Builder.empty (forestHtml nodes) >>= _ = _
    rw [hread, ok_bind, Builder.finish]
    rfl
  have hforest : Compile.forest names trees = .ok (constants nodes) :=
    Compile.nodes_eq_ok_iff.2 (htrees names 0)
  simp only [Stencil.compile, htree, ok_bind, hforest]

end Reading

mutual

theorem isWritable_of_regular :
    ∀ n : Node, n.Regular → n.isWritable = true
  | .text _, _ => by
      simp only [isWritable]
  | .element tag attributes children, h => by
      simp only [isWritable]
      exact allWritable_of_regular children h.2.2
  | .raw _, h => h.elim
  | .absent, h => h.elim
  | .reference, h => h.elim

theorem allWritable_of_regular :
    ∀ nodes : List Node, RegularForest nodes → allWritable nodes = true
  | [], _ => by
      simp only [allWritable]
  | n :: rest, h => by
      obtain ⟨hnode, -, hrest⟩ := h
      simp only [allWritable, isWritable_of_regular n hnode, allWritable_of_regular rest hrest,
        Bool.and_self]

end

end Node

/-- The markup of a regular forest is a template, and whatever engine renders it with whatever data
gives the forest back. -/
theorem render_compile_html
    {e : Engine}
    (hkeep : e.keepWhitespace = true)
    {forest : List Node}
    (hforest : Node.RegularForest forest)
    (name : Bytes) :
    ∃ source program, Node.html forest = some source ∧ e.compile name source = .ok program ∧
      ∀ (later : Engine) (data : Datum), later.render program.ops data = .ok forest := by
  refine ⟨Node.forestHtml forest, ⟨name, Node.constants forest⟩, ?_, ?_, fun later data => ?_⟩
  · simp only [Node.html, Node.allWritable_of_regular forest hforest, if_true]
  · exact Node.compile_forestHtml hkeep hforest _ name
  · exact Node.render_constants hforest _ _ _ _

/-- A paragraph with an attribute that holds all kinds of special characters, an empty attribute, a
void element and texts. -/
def letter : List Node :=
  [.text (utf8 "Dear \"<all>\" & 'some',\n"),
    .element (utf8 "p") [(utf8 "title", utf8 "a \"b\" & <c> &amp; \x7b"), (utf8 "data-x1", [])]
      [.text (utf8 "\x7b \x7b 1 < 2"), .element (utf8 "br") [] [], .text (utf8 "é\t")],
    .element (utf8 "h1") [] []]

theorem render_compile_letter :
    ∃ source program, Node.html letter = some source ∧
      ({ keepWhitespace := true } : Engine).compile Engine.unnamed source = .ok program ∧
      ∀ (later : Engine) (data : Datum), later.render program.ops data = .ok letter := by
  refine render_compile_html rfl ?_ Engine.unnamed
  simp only [letter, Node.RegularForest, Node.Regular]
  decide +kernel

end Stencil
