import Stencil.Proofs.Compile.Encoding
import Stencil.Proofs.Compile.Void
import Stencil.Proofs.Render.Injection
import Stencil.Proofs.Render.Linking

/-!
# Content that is written

An element with a void tag is written without its children.  Nothing of a forest is lost as long as
its void elements have no children, and templates render no others: a void tag closes at once when
the template is read, the names of the elements are literals, and what is taken from data has no
void elements with children either.

Results: `Node.inOrder_html` for forests, `serialisation_drops_no_content` for templates and what
they render.
-/

namespace Stencil

/-! ## Forests -/

/-- Pieces of a text, one behind the other in this order, with anything in between. -/
inductive InOrder : List Bytes → Bytes → Prop where
  | nil (out : Bytes) : InOrder [] out
  | cons (gap piece : Bytes) {pieces : List Bytes} {out : Bytes} :
      InOrder pieces out → InOrder (piece :: pieces) (gap ++ piece ++ out)

theorem InOrder.behind
    {pieces : List Bytes} {out : Bytes}
    (h : InOrder pieces out)
    (front : Bytes) :
    InOrder pieces (front ++ out) := by
  cases h with
  | nil =>
      exact .nil _
  | cons gap piece hrest =>
      rw [← List.append_assoc, ← List.append_assoc]
      exact .cons (front ++ gap) piece hrest

theorem InOrder.append
    {pieces pieces' : List Bytes} {out out' : Bytes}
    (h : InOrder pieces out)
    (h' : InOrder pieces' out') :
    InOrder (pieces ++ pieces') (out ++ out') := by
  induction h with
  | nil out =>
      exact h'.behind out
  | cons gap piece _ ih =>
      rw [List.append_assoc]
      exact .cons gap piece ih

namespace Node

mutual

/-- The texts and the trusted markup of a node, each as it is written, in the order of the
document. -/
def written : Node → List Bytes
  | text s => [Text.escapeHtml s]
  | raw s => [s]
  | element _ _ children => allWritten children
  | absent => []
  | reference => []

/-- The texts and the trusted markup of a forest. -/
def allWritten : List Node → List Bytes
  | [] => []
  | n :: rest => written n ++ allWritten rest

end

/-- An element with a void tag has no children. -/
def VoidEmpty : Node → Prop
  | element tag _ children => tag ∈ voidTags → children = []
  | text _ | raw _ | absent | reference => True

mutual

theorem inOrder_toHtml :
    ∀ n : Node, (∀ m ∈ n.parts, m.VoidEmpty) → InOrder n.written n.toHtml
  | .text s, _ => by
      simpa only [written, toHtml, List.nil_append, List.append_nil] using
        InOrder.cons [] (Text.escapeHtml s) (.nil [])
  | .raw s, _ => by
      simpa only [written, toHtml, List.nil_append, List.append_nil] using
        InOrder.cons [] s (.nil [])
  | .element tag attributes children, hparts => by
      simp only [parts, List.forall_mem_cons] at hparts
      obtain ⟨hself, hbelow⟩ := hparts
      simp only [written, toHtml]
      refine InOrder.behind ?_ _
      split
      · next hvoid =>
          rw [hself (List.contains_iff_mem.1 hvoid)]
          exact .nil _
      · have hchildren := (inOrder_forestHtml children hbelow).append
          (.nil (utf8 "</" ++ tag ++ utf8 ">"))
        simpa only [List.append_nil, List.append_assoc] using hchildren
  | .absent, _ => .nil _
  | .reference, _ => .nil _

/-- A forest whose void elements have no children is written with all its texts and all its trusted
markup, in their order. -/
theorem inOrder_forestHtml :
    ∀ nodes : List Node, (∀ m ∈ allParts nodes, m.VoidEmpty) →
      InOrder (allWritten nodes) (forestHtml nodes)
  | [], _ => .nil _
  | n :: rest, hparts => by
      simp only [allParts, List.forall_mem_append] at hparts
      exact (inOrder_toHtml n hparts.1).append (inOrder_forestHtml rest hparts.2)

end

/-- The markup of a forest whose void elements have no children has all its content; there is no
markup only if an element is held by reference. -/
theorem inOrder_html
    {nodes : List Node}
    (h : ∀ m ∈ allParts nodes, m.VoidEmpty) :
    (∃ out, html nodes = some out ∧ InOrder (allWritten nodes) out) ∨
      html nodes = none ∧ reference ∈ allParts nodes := by
  cases hwritable : allWritable nodes with
  | true =>
      refine Or.inl ⟨forestHtml nodes, ?_, inOrder_forestHtml nodes h⟩
      simp only [html, hwritable, if_true]
  | false =>
      refine Or.inr ⟨?_, reference_mem_allParts nodes hwritable⟩
      simp only [html, hwritable, Bool.false_eq_true, if_false]

end Node

/-! ## Runs -/

/-- No void element with children can be reached in a value. -/
def Value.Solid : Value → Prop :=
  Value.Everywhere fun w => ∀ nodes, w = .nodes nodes → ∀ m ∈ Node.allParts nodes, m.VoidEmpty

theorem Value.common_solid :
    Common fun w => ∀ nodes, w = .nodes nodes → ∀ m ∈ Node.allParts nodes, m.VoidEmpty := by
  rintro v _ hnodes nodes rfl
  exact absurd rfl hnodes

theorem Value.Solid.display
    {v : Value}
    (h : v.Solid) :
    ∀ m ∈ Node.allParts v.display, m.VoidEmpty := by
  intro m hm
  cases v with
  | nodes nodes =>
      exact h _ (.self _) nodes rfl m hm
  | null | bool | int | float | text | html | record | list =>
      obtain rfl := List.mem_singleton.1 hm
      trivial

/-- An element step has a literal name, and no children if that is a void tag. -/
def Op.VoidEmpty : Op → Prop
  | .element name _ children => ∃ t, name = [.literal t] ∧ (t ∈ Node.voidTags → children = [])
  | .literal _ | .interpolation _ | .block .. | .inclusion .. | .unknown => True

/-- Programs whose void elements have no children render such forests. -/
def contentContract : Contract where
  step := Op.VoidEmpty
  value := Value.Solid
  node := fun n => ∀ m ∈ n.parts, m.VoidEmpty
  failure := fun _ => True

theorem contentContract_nodes
    {nodes : List Node} :
    contentContract.Nodes nodes ↔ ∀ m ∈ Node.allParts nodes, m.VoidEmpty := by
  constructor
  · intro h m hm
    obtain ⟨n, hn, hmem⟩ := Node.mem_allParts.1 hm
    exact h n hn m hmem
  · intro h n hn m hm
    exact h m (Node.mem_allParts.2 ⟨n, hn, hm⟩)

theorem contentContract_element
    {name : List Op} {values : List (Bytes × List Op)} {children : List Op}
    (hstep : contentContract.step (.element name values children))
    (l : Linkage) (s : Scope) (r r' : Run) (attributes : List (Bytes × Bytes))
    (hchildren : contentContract.Nodes (Op.renderAll l children s r').1) :
    contentContract.node (.element (Node.textOf (Op.renderAll l name s r).1) attributes
      (Op.renderAll l children s r').1) := by
  intro m hm
  rcases List.mem_cons.1 hm with rfl | hbelow
  · obtain ⟨t, rfl, hempty⟩ := hstep
    intro hvoid
    have htag : Node.textOf (Op.renderAll l [.literal t] s r).1 = t := by
      simp [Op.renderAll, Op.render, Render.append, Render.nothing, Node.textOf, Node.content]
    rw [htag] at hvoid
    rw [hempty hvoid]
    rfl
  · exact contentContract_nodes.1 hchildren m hbelow

theorem contentContract_kept
    {reg : Registry}
    (hhelpers : ∀ name helper, reg.helper name = some helper → (name, helper) ∈ Helper.builtins)
    (hpartials : ∀ name program, reg.partialOps name = some program →
      ∀ op ∈ Op.allSteps program, op.VoidEmpty) :
    contentContract.Kept reg where
  null := Value.everywhere_null Value.common_solid
  constant := Value.everywhere_constant Value.common_solid
  get := fun v key hv => Value.Everywhere.get hv key
  trust := fun _ _ _ _ _ v hv =>
    Value.everywhere_trust Value.common_solid hv fun _ _ hmarkup => by cases hmarkup
  included := fun base parameters => Value.everywhere_includedData Value.common_solid
  display := fun v hv => contentContract_nodes.2 (Value.Solid.display hv)
  literal := by
    intro s _ m hm
    obtain rfl := List.mem_singleton.1 hm
    trivial
  element := fun name values children hstep l s r r' attributes _ =>
    contentContract_element hstep l s r r' attributes
  helper := fun name helper hhelper =>
    Contract.helper_builtins rfl Value.common_solid (fun _ => trivial) _
      (hhelpers name helper hhelper)
  partialOps := hpartials
  noHelper := fun _ _ _ _ _ _ _ _ => trivial
  noPartial := fun _ _ _ _ _ => trivial
  within := fun _ _ _ => trivial
  unsupported := fun _ => trivial
  recursion := fun _ _ => trivial
  exhausted := trivial

/-! ## Templates -/

/-- A tag without an expression in its name names its element as it stands. -/
theorem Fragment.eq_of_read_name
    {isHelper : Bytes → Bool} {span : Span} {tag t : Bytes} {name : List Fragment}
    (hplain : Bytes.occurs Markup.opener tag = false)
    (hread : Fragment.read isHelper (.tag span) tag = .ok name)
    (hname : name.map Fragment.mark = [.literal t]) :
    t = tag := by
  rw [Fragment.read_of_not_occurs isHelper (.tag span) hplain] at hread
  obtain rfl := Except.ok.inj hread
  split at hname
  · cases hname
  · cases hname
    rfl

/-- Whether the name of a tag is a literal and, if that is a void tag, it closes at once and no
expression stands in it. -/
def Markup.Event.hasLiteralName (r : Reading) : Markup.Event → Bool
  | .openTag tag _ span =>
    match Fragment.read r.isHelper (.tag span) tag with
    | .ok [⟨_, .literal t⟩] =>
      !Node.voidTags.contains t ||
        (!Markup.openVoids.contains t && !Bytes.occurs Markup.opener tag)
    | _ => false
  | .text .. | .closeTag _ => true

theorem Markup.Event.hasLiteralName_openTag
    {r : Reading} {tag : Bytes} {attributes : List Markup.Attribute} {span : Span}
    {name : List Fragment}
    (h : Markup.Event.hasLiteralName r (.openTag tag attributes span) = true)
    (hread : Fragment.read r.isHelper (.tag span) tag = .ok name) :
    ∃ t, name.map Fragment.mark = [.literal t] ∧ (t ∈ Node.voidTags →
      t ∉ Markup.openVoids ∧ Bytes.occurs Markup.opener tag = false) := by
  simp only [hasLiteralName, hread] at h
  split at h
  · next t heq =>
      obtain rfl := Except.ok.inj heq
      refine ⟨t, rfl, fun ht => ?_⟩
      simpa [List.contains_iff_mem, ht] using h
  · cases h

/-- The program of a template whose tags have such names. -/
def Op.OfLiteralTags (ops : List Op) : Prop :=
  ∃ reading names name source p, compile reading names name source = .ok p ∧ p.ops = ops ∧
    (Markup.events source).all (Markup.Event.hasLiteralName reading) = true

/-- An element of a template has a literal name, and no children if that is a void tag. -/
def Tree.LiteralVoidEmpty : Tree → Prop
  | .element _ name _ children => ∃ t, name.map Fragment.mark = [.literal t] ∧
      (t ∈ Node.voidTags → children = [])
  | .text .. => True

theorem Tree.VoidEmpty.literal
    {r : Reading} {events : List Markup.Event} {t : Tree}
    (h : t.VoidEmpty r events)
    (hliteral : ∀ e ∈ events, e.hasLiteralName r = true) :
    t.LiteralVoidEmpty := by
  cases t with
  | text span fragments =>
      trivial
  | element span name attributes children =>
      obtain ⟨tag, ⟨_, tagSpan, hmem, _, hread⟩, hempty⟩ := h
      obtain ⟨t, hname, hvoid⟩ := Markup.Event.hasLiteralName_openTag (hliteral _ hmem) hread
      refine ⟨t, hname, fun ht => ?_⟩
      obtain ⟨hcloses, hplain⟩ := hvoid ht
      obtain rfl := Fragment.eq_of_read_name hplain hread hname
      exact hempty (Markup.mem_voidNames_of_mem_voidTags ht hcloses)

/-- An item of a template whose void elements have no children. -/
def Item.VoidEmpty : Item → Prop
  | .fragment _ => True
  | .element name _ children => (∃ t, name.map Fragment.mark = [.literal t] ∧
      (t ∈ Node.voidTags → children = [])) ∧ ∀ t ∈ Tree.allParts children, t.LiteralVoidEmpty

theorem Item.voidEmpty_ofForest
    {trees : List Tree}
    (h : ∀ t ∈ Tree.allParts trees, t.LiteralVoidEmpty) :
    ∀ i ∈ Item.ofForest trees, i.VoidEmpty := by
  induction trees with
  | nil =>
      exact fun i hi => absurd hi List.not_mem_nil
  | cons t rest ih =>
      simp only [Tree.allParts, List.forall_mem_append] at h
      rw [Item.ofForest_cons, List.forall_mem_append]
      refine ⟨fun i hi => ?_, ih h.2⟩
      cases t with
      | text span fragments =>
          obtain ⟨f, _, rfl⟩ := List.mem_map.1 hi
          trivial
      | element span name attributes children =>
          obtain rfl := List.mem_singleton.1 hi
          simp only [Tree.parts, List.forall_mem_cons] at h
          exact ⟨h.1.1, h.1.2⟩

theorem Compiled.eq_nil
    {names : Names} {depth : Nat} {ops : List Op}
    (h : Compiled names depth [] ops) :
    ops = [] := by
  cases h
  rfl

/-- A name that is one literal is compiled to one literal. -/
theorem Compiled.eq_literal
    {names : Names} {depth : Nat} {name : List Fragment} {ops : List Op} {t : Bytes}
    (h : Compiled names depth (name.map .fragment) ops)
    (hname : name.map Fragment.mark = [.literal t]) :
    ops = [.literal t] := by
  obtain ⟨⟨span, mark⟩, rfl, hmark⟩ := List.map_eq_singleton_iff.1 hname
  obtain rfl : mark = .literal t := hmark
  cases h with
  | mark hcompiled hrest =>
      cases hcompiled
      rw [hrest.eq_nil]

/-- Items whose void elements have no children are compiled to such steps. -/
theorem Compiled.voidEmpty
    {names : Names} {depth : Nat} {items : List Item} {ops : List Op}
    (h : Compiled names depth items ops)
    (hitems : ∀ i ∈ items, i.VoidEmpty) :
    ∀ op ∈ Op.allSteps ops, op.VoidEmpty := by
  refine Compiled.steps ?_ (fun _ _ _ _ _ _ _ => trivial) ?_ ?_ h hitems
  · intro depth span mark op _ hcompiled
    cases hcompiled <;> trivial
  · intro depth name attributes children nameOps childOps value hself hname hchildren
    obtain ⟨⟨t, hliteral, hempty⟩, _⟩ := hself
    refine ⟨t, hname.eq_literal hliteral, fun ht => ?_⟩
    rw [hempty ht, Item.ofForest_nil] at hchildren
    exact hchildren.eq_nil
  · intro name attributes children hself
    exact ⟨fun _ _ => trivial, fun _ _ _ _ => trivial, Item.voidEmpty_ofForest hself.2⟩

/-- The steps of a template whose tags have literal names. -/
theorem Op.OfLiteralTags.voidEmpty
    {ops : List Op}
    (h : Op.OfLiteralTags ops) :
    ∀ op ∈ Op.allSteps ops, op.VoidEmpty := by
  obtain ⟨reading, names, name, source, p, hcompile, rfl, hliteral⟩ := h
  obtain ⟨trees, hread, hforest⟩ := compile_eq_ok hcompile
  have hvoids := Tree.voidsEmpty_of_read hread
  refine (Compile.nodes_eq_ok_iff.1 hforest).voidEmpty (Item.voidEmpty_ofForest fun t ht => ?_)
  exact (hvoids t ht).literal (List.all_eq_true.1 hliteral)

/-- Serialisation drops no content.  An element whose name is written as a void tag has no children
when the template is read, unless an expression stands in its tag or its tag does not close at once.
Where all tags have literal names, none of them of these kinds, helpers are the built-in ones and no
void element with children can be reached in the data, all texts and all trusted markup of the
rendered forest stand in the output, in their order. -/
theorem serialisation_drops_no_content :
    (∀ (r : Reading) (source : Bytes) (forest : List Tree), Tree.read r source = .ok forest →
      ∀ span name attributes children,
        .element span name attributes children ∈ Tree.allParts forest →
        ∃ tag, Tree.TagOf r (Markup.events source) span name tag ∧
          (Bytes.occurs Markup.opener tag = false → ∀ t, name.map Fragment.mark = [.literal t] →
            t ∈ Node.voidTags → t ∉ Markup.openVoids → children = [])) ∧
    (∀ (reg : Registry) (ops : List Op) (data : Value) (bound fuel : Nat) (nodes : List Node),
      (∀ name helper, reg.helper name = some helper → (name, helper) ∈ Helper.builtins) →
      Op.OfLiteralTags ops →
      (∀ name program, reg.partialOps name = some program → Op.OfLiteralTags program) →
      data.Solid →
      render reg bound fuel ops data = .ok nodes →
      (∃ out, Node.html nodes = some out ∧ InOrder (Node.allWritten nodes) out) ∨
        Node.html nodes = none ∧ .reference ∈ Node.allParts nodes) := by
  constructor
  · intro r source forest hread span name attributes children hmem
    obtain ⟨tag, htag, hempty⟩ := Tree.voidsEmpty_of_read hread _ hmem
    refine ⟨tag, htag, fun hplain t hname hvoid hcloses => ?_⟩
    obtain ⟨_, tagSpan, _, _, hfragments⟩ := htag
    obtain rfl := Fragment.eq_of_read_name hplain hfragments hname
    exact hempty (Markup.mem_voidNames_of_mem_voidTags hvoid hcloses)
  · intro reg ops data bound fuel nodes hhelpers hops hpartials hdata hrender
    have hkept := contentContract_kept hhelpers fun name program hprogram =>
      (hpartials name program hprogram).voidEmpty
    exact Node.inOrder_html (contentContract_nodes.1 (hkept.render hops.voidEmpty hdata hrender))

/-- The built-in helpers are known when a template is read. -/
def plainReading : Reading := ⟨fun name => (Helper.builtins.lookup name).isSome, false⟩

/-- The steps of a template; none if it does not compile. -/
def stepsOf (source : Bytes) : List Op :=
  match compile plainReading Names.any (utf8 "page") source with
  | .ok p => p.ops
  | .error _ => []

/-- A list of dishes, each shown by a partial, with a rule behind it. -/
def menuPage : Bytes :=
  utf8 "<ul>\x7b\x7b#each dishes\x7d\x7d\x7b\x7b> dish\x7d\x7d\x7b\x7b/each\x7d\x7d</ul><hr>end"

/-- One dish: its name, and a note behind a line break. -/
def dishItem : Bytes :=
  utf8 "<li>\x7b\x7bname\x7d\x7d<br>\x7b\x7b\x7bnote\x7d\x7d\x7d</li>"

/-- The built-in helpers and the partial of a dish. -/
def menuRegistry : Registry where
  helper := fun name => Helper.builtins.lookup name
  partialOps := fun name => if name = utf8 "dish" then some (stepsOf dishItem) else none

/-- Two dishes: the note of the one is markup, that of the other are nodes. -/
def twoDishes : Value :=
  .record [(utf8 "dishes", .list [
    .record [(utf8 "name", .text (utf8 "pie & mash")), (utf8 "note", .text (utf8 "<b>hot</b>"))] [],
    .record [(utf8 "name", .text (utf8 "tea")),
      (utf8 "note", .nodes [.element (utf8 "hr") [] [], .text (utf8 "no milk")])] []])] []

theorem ofLiteralTags_stepsOf
    {source : Bytes}
    (hcompile : (compile plainReading Names.any (utf8 "page") source).isOk = true)
    (hliteral :
      (Markup.events source).all (Markup.Event.hasLiteralName plainReading) = true) :
    Op.OfLiteralTags (stepsOf source) := by
  obtain ⟨p, h⟩ := isOk_eq_true_iff.1 hcompile
  exact ⟨plainReading, Names.any, utf8 "page", source, p, h, by simp only [stepsOf, h], hliteral⟩

theorem solid_twoDishes :
    twoDishes.Solid := by
  have hcommon := Value.common_solid
  have htext : ∀ s, (Value.text s).Solid := Value.everywhere_text hcommon
  have hnote : (Value.nodes [.element (utf8 "hr") [] [], .text (utf8 "no milk")]).Solid := by
    refine Value.everywhere_of_parts ?_ (fun _ => Value.everywhere_null hcommon)
      fun _ h => by cases h
    intro nodes hnodes m hm
    cases hnodes
    simp only [Node.allParts, Node.parts, List.append_nil, List.cons_append, List.nil_append,
      List.mem_cons, List.not_mem_nil, or_false] at hm
    rcases hm with rfl | rfl
    · exact fun _ => rfl
    · trivial
  have hrecord : ∀ name note : Value, name.Solid → note.Solid →
      (Value.record [(utf8 "name", name), (utf8 "note", note)] []).Solid := by
    intro name note hname hnote
    refine Value.everywhere_record hcommon (fun f hf => ?_) fun _ h => absurd h List.not_mem_nil
    simp only [List.mem_cons, List.not_mem_nil, or_false] at hf
    rcases hf with rfl | rfl
    · exact hname
    · exact hnote
  refine Value.everywhere_record hcommon (fun f hf => ?_) fun _ h => absurd h List.not_mem_nil
  obtain rfl := List.mem_singleton.1 hf
  refine Value.everywhere_list hcommon fun v hv => ?_
  simp only [List.mem_cons, List.not_mem_nil, or_false] at hv
  rcases hv with rfl | rfl
  · exact hrecord _ _ (htext _) (htext _)
  · exact hrecord _ _ (htext _) hnote

/-- The menu is rendered, and its content stands in the output. -/
theorem menuPage_drops_no_content :
    ∃ forest nodes, Tree.read plainReading menuPage = .ok forest ∧
      (∀ span name attributes children,
        .element span name attributes children ∈ Tree.allParts forest →
        ∃ tag, Tree.TagOf plainReading (Markup.events menuPage) span name tag ∧
          (Bytes.occurs Markup.opener tag = false → ∀ t, name.map Fragment.mark = [.literal t] →
            t ∈ Node.voidTags → t ∉ Markup.openVoids → children = [])) ∧
      render menuRegistry 64 0 (stepsOf menuPage) twoDishes = .ok nodes ∧
      ((∃ out, Node.html nodes = some out ∧ InOrder (Node.allWritten nodes) out) ∨
        Node.html nodes = none ∧ .reference ∈ Node.allParts nodes) := by
  obtain ⟨hempty, hcontent⟩ := serialisation_drops_no_content
  have hread : (Tree.read plainReading menuPage).isOk = true := by decide +kernel
  have hrender : (render menuRegistry 64 0 (stepsOf menuPage) twoDishes).isOk = true := by
    decide +kernel
  have hpage : Op.OfLiteralTags (stepsOf menuPage) :=
    ofLiteralTags_stepsOf (by decide +kernel) (by decide +kernel)
  have hdish : Op.OfLiteralTags (stepsOf dishItem) :=
    ofLiteralTags_stepsOf (by decide +kernel) (by decide +kernel)
  have hhelpers : ∀ name helper, menuRegistry.helper name = some helper →
      (name, helper) ∈ Helper.builtins := by
    intro name helper hhelper
    obtain ⟨before, after, hsplit, _⟩ := List.lookup_eq_some_iff.1 hhelper
    simp [hsplit]
  have hpartials : ∀ name program, menuRegistry.partialOps name = some program →
      Op.OfLiteralTags program := by
    intro name program hprogram
    simp only [menuRegistry] at hprogram
    split at hprogram
    · cases hprogram
      exact hdish
    · cases hprogram
  obtain ⟨forest, hforest⟩ := isOk_eq_true_iff.1 hread
  obtain ⟨nodes, hnodes⟩ := isOk_eq_true_iff.1 hrender
  exact ⟨forest, nodes, hforest, hempty plainReading menuPage forest hforest, hnodes,
    hcontent menuRegistry _ twoDishes 64 0 nodes hhelpers hpage hpartials solid_twoDishes hnodes⟩

/-- Whether a template is one element with this literal name that has children. -/
def isFilled (tag : Bytes) : Except Fault (List Tree) → Bool
  | .ok [.element _ [⟨_, .literal t⟩] _ children] => t == tag && !children.isEmpty
  | _ => false

theorem exists_of_isFilled
    {tag : Bytes} {result : Except Fault (List Tree)}
    (h : isFilled tag result = true) :
    ∃ forest span name attributes children, result = .ok forest ∧
      .element span name attributes children ∈ Tree.allParts forest ∧
      name.map Fragment.mark = [.literal tag] ∧ children ≠ [] := by
  unfold isFilled at h
  split at h
  · next span fragmentSpan t attributes children =>
      simp only [Bool.and_eq_true, beq_iff_eq, Bool.not_eq_true', List.isEmpty_eq_false_iff] at h
      obtain ⟨rfl, hchildren⟩ := h
      exact ⟨_, span, _, attributes, children, rfl, List.mem_cons_self, rfl, hchildren⟩
  · cases h

/-- Whether a forest is one element with this tag around this text. -/
def isAround (tag value : Bytes) : Except RenderError (List Node) → Bool
  | .ok [.element t [] [.text s]] => t == tag && s == value
  | _ => false

theorem eq_of_isAround
    {tag value : Bytes} {result : Except RenderError (List Node)}
    (h : isAround tag value result = true) :
    result = .ok [.element tag [] [.text value]] := by
  unfold isAround at h
  split at h
  · simp only [Bool.and_eq_true, beq_iff_eq] at h
    rw [h.1, h.2]
  · cases h

theorem InOrder.mem
    {piece out : Bytes}
    (h : InOrder [piece] out)
    {b : UInt8}
    (hb : b ∈ piece) :
    b ∈ out := by
  cases h
  simp [hb]

/-- An element that is written as void but does not close at once has children, and so has one with
a comment in its tag; the text of the first is rendered and not written.  Nor is the text in a void
element that comes from data. -/
theorem content_dropped_in_filled_voids :
    (∃ forest span name attributes children,
      Tree.read plainReading (utf8 "<param>x</param>") = .ok forest ∧
      .element span name attributes children ∈ Tree.allParts forest ∧
      name.map Fragment.mark = [.literal (utf8 "param")] ∧ children ≠ []) ∧
    (∃ forest span name attributes children,
      Tree.read plainReading (utf8 "<br\x7b\x7b!c\x7d\x7d>x</br>") = .ok forest ∧
      .element span name attributes children ∈ Tree.allParts forest ∧
      name.map Fragment.mark = [.literal (utf8 "br")] ∧ children ≠ []) ∧
    utf8 "param" ∈ Node.voidTags ∧ utf8 "br" ∈ Node.voidTags ∧
    (∃ nodes out, render menuRegistry 64 0 (stepsOf (utf8 "<param>x</param>")) .null = .ok nodes ∧
      Node.html nodes = some out ∧ ¬ InOrder (Node.allWritten nodes) out) ∧
    ∃ nodes out, render menuRegistry 64 0 (stepsOf (utf8 "\x7b\x7bthis\x7d\x7d"))
        (.nodes [.element (utf8 "br") [] [.text (utf8 "x")]]) = .ok nodes ∧
      Node.html nodes = some out ∧ ¬ InOrder (Node.allWritten nodes) out := by
  have hparam : isAround (utf8 "param") (utf8 "x")
      (render menuRegistry 64 0 (stepsOf (utf8 "<param>x</param>")) .null) = true := by
    decide +kernel
  have hbreak : isAround (utf8 "br") (utf8 "x")
      (render menuRegistry 64 0 (stepsOf (utf8 "\x7b\x7bthis\x7d\x7d"))
        (.nodes [.element (utf8 "br") [] [.text (utf8 "x")]])) = true := by
    decide +kernel
  refine ⟨exists_of_isFilled (by decide +kernel), exists_of_isFilled (by decide +kernel),
    by decide, by decide, ⟨_, utf8 "<param>", eq_of_isAround hparam, by decide +kernel, ?_⟩,
    _, utf8 "<br>", eq_of_isAround hbreak, by decide +kernel, ?_⟩
  · intro h
    have hx : 0x78 ∈ utf8 "<param>" := InOrder.mem h (by decide)
    exact absurd hx (by decide)
  · intro h
    have hx : 0x78 ∈ utf8 "<br>" := InOrder.mem h (by decide)
    exact absurd hx (by decide)

end Stencil
