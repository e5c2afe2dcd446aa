import Stencil.Proofs.Markup.Written
import Stencil.Proofs.Render.Reach

/-!
# No markup from data

Where no path is trusted, data become texts and attribute values and nothing else.  The invariant is
that only plain values are in view: values in which no trusted markup and no nodes can be reached.

Result: `data_injects_no_markup`.  The markup of the rendered forest is a nesting of elements that
the templates write, around texts and attribute values that cannot open a tag or end a quote.
-/

namespace Stencil

/-! ## Plain values -/

namespace Value

/-- No trusted markup and no nodes can be reached in a value. -/
def Plain (v : Value) : Prop := ∀ w, v.Reaches w → w.kind ≠ .html ∧ w.kind ≠ .nodes

theorem common_plain :
    Common fun w => w.kind ≠ .html ∧ w.kind ≠ .nodes :=
  fun _ hhtml hnodes => ⟨hhtml, hnodes⟩

/-- A plain value is shown as a text. -/
theorem Plain.display
    {v : Value}
    (h : v.Plain) :
    v.display = [.text v.toText] := by
  obtain ⟨hhtml, hnodes⟩ := h v (.self v)
  cases v with
  | html | nodes =>
      simp [kind] at hhtml hnodes
  | null | bool | int | float | text | record | list =>
      rfl

end Value

/-! ## The parts of a forest -/

namespace Node

mutual

/-- A node and all nodes below it. -/
def parts : Node → List Node
  | element tag attributes children => element tag attributes children :: allParts children
  | text s => [text s]
  | raw s => [raw s]
  | absent => [absent]
  | reference => [reference]

/-- The nodes of a forest at any depth. -/
def allParts : List Node → List Node
  | [] => []
  | n :: rest => parts n ++ allParts rest

end

theorem mem_allParts
    {m : Node} {nodes : List Node} :
    m ∈ allParts nodes ↔ ∃ n ∈ nodes, m ∈ n.parts := by
  induction nodes with
  | nil =>
      simp [allParts]
  | cons n rest ih =>
      simp [allParts, ih]

/-- A text, or an element with one of some tags and the attribute keys that go with it. -/
def MadeOf (known : Bytes → List Bytes → Prop) : Node → Prop
  | text _ => True
  | element tag attributes _ => known tag (attributes.map Prod.fst)
  | raw _ | absent | reference => False

theorem MadeOf.mono
    {known known' : Bytes → List Bytes → Prop} {n : Node}
    (h : n.MadeOf known)
    (hknown : ∀ tag keys, known tag keys → known' tag keys) :
    n.MadeOf known' := by
  cases n with
  | text =>
      trivial
  | element tag attributes children =>
      exact hknown tag _ h
  | raw | absent | reference =>
      exact h

end Node

/-! ## Markup -/

/-- Markup that nests some known elements, around texts and attribute values that cannot open or
close a tag and cannot end a quote. -/
inductive SafeMarkup (known : Bytes → List Bytes → Prop) : Bytes → Prop
  | nil : SafeMarkup known []
  | text {s rest : Bytes}
      (hs : Text.Inert s)
      (hrest : SafeMarkup known rest) :
      SafeMarkup known (s ++ rest)
  | void {tag : Bytes} {attributes : List (Bytes × Bytes)} {rest : Bytes}
      (htag : known tag (attributes.map Prod.fst))
      (hvoid : tag ∈ Node.voidTags)
      (hvalues : ∀ a ∈ attributes, Text.Inert a.2)
      (hrest : SafeMarkup known rest) :
      SafeMarkup known (startTag tag attributes ++ rest)
  | element {tag : Bytes} {attributes : List (Bytes × Bytes)} {inner rest : Bytes}
      (htag : known tag (attributes.map Prod.fst))
      (hvalues : ∀ a ∈ attributes, Text.Inert a.2)
      (hinner : SafeMarkup known inner)
      (hrest : SafeMarkup known rest) :
      SafeMarkup known (startTag tag attributes ++ inner ++ endTag tag ++ rest)

namespace Node

theorem inert_escapedAttributes
    (attributes : List (Bytes × Bytes)) :
    ∀ a ∈ escapedAttributes attributes, Text.Inert a.2 := by
  intro a ha
  obtain ⟨b, _, rfl⟩ := List.mem_map.1 ha
  exact Text.inert_escapeHtml b.2

mutual

theorem safeMarkup_toHtml
    {known : Bytes → List Bytes → Prop} :
    ∀ n : Node, (∀ m ∈ n.parts, m.MadeOf known) →
      ∀ rest, SafeMarkup known rest → SafeMarkup known (n.toHtml ++ rest)
  | .text s, _, rest, hrest => by
      simp only [toHtml]
      exact .text (Text.inert_escapeHtml s) hrest
  | .element tag attributes children, hparts, rest, hrest => by
      simp only [parts, List.forall_mem_cons] at hparts
      have htag : known tag ((escapedAttributes attributes).map Prod.fst) := by
        simpa [escapedAttributes, Function.comp_def, MadeOf] using hparts.1
      have hvalues := inert_escapedAttributes attributes
      have hinner := safeMarkup_forestHtml children hparts.2 [] .nil
      rw [List.append_nil] at hinner
      rw [toHtml_element]
      split
      · next hvoid =>
          rw [List.append_nil]
          exact .void htag (List.contains_iff_mem.1 hvoid) hvalues hrest
      · simpa only [List.append_assoc] using SafeMarkup.element htag hvalues hinner hrest
  | .raw s, hparts, rest, hrest => (hparts (.raw s) (List.mem_singleton.2 rfl)).elim
  | .absent, hparts, rest, hrest => (hparts .absent (List.mem_singleton.2 rfl)).elim
  | .reference, hparts, rest, hrest => (hparts .reference (List.mem_singleton.2 rfl)).elim

theorem safeMarkup_forestHtml
    {known : Bytes → List Bytes → Prop} :
    ∀ nodes : List Node, (∀ m ∈ allParts nodes, m.MadeOf known) →
      ∀ rest, SafeMarkup known rest → SafeMarkup known (forestHtml nodes ++ rest)
  | [], _, rest, hrest => by
      simpa only [forestHtml, List.nil_append] using hrest
  | n :: nodes, hparts, rest, hrest => by
      simp only [allParts, List.forall_mem_append] at hparts
      simp only [forestHtml, List.append_assoc]
      exact safeMarkup_toHtml n hparts.1 _ (safeMarkup_forestHtml nodes hparts.2 rest hrest)

end

mutual

theorem reference_mem_parts :
    ∀ n : Node, n.isWritable = false → reference ∈ n.parts
  | .element tag attributes children, h => by
      simp only [isWritable] at h
      exact List.mem_cons_of_mem _ (reference_mem_allParts children h)
  | .reference, _ => List.mem_singleton.2 rfl
  | .text _, h | .raw _, h | .absent, h => by
      simp only [isWritable] at h
      cases h

/-- A forest that cannot be written holds an element by reference. -/
theorem reference_mem_allParts :
    ∀ nodes : List Node, allWritable nodes = false → reference ∈ allParts nodes
  | [], h => by
      simp only [allWritable] at h
      cases h
  | n :: rest, h => by
      simp only [allWritable, Bool.and_eq_false_iff] at h
      rcases h with hn | hrest
      · exact List.mem_append_left _ (reference_mem_parts n hn)
      · exact List.mem_append_right _ (reference_mem_allParts rest hrest)

end

/-- A forest of texts and known elements is written as markup of these elements. -/
theorem html_of_madeOf
    {known : Bytes → List Bytes → Prop} {nodes : List Node}
    (h : ∀ m ∈ allParts nodes, m.MadeOf known) :
    ∃ markup, Node.html nodes = some markup ∧ SafeMarkup known markup := by
  have hwritable : allWritable nodes = true :=
    Bool.of_not_eq_false fun hnot => h _ (reference_mem_allParts nodes hnot)
  refine ⟨forestHtml nodes, by simp only [html, hwritable, if_true], ?_⟩
  simpa only [List.append_nil] using safeMarkup_forestHtml nodes h [] .nil

end Node

/-! ## Runs on plain data -/

namespace Registry

/-- A step is written in a program or in a registered partial, at any depth. -/
def Writes (reg : Registry) (ops : List Op) (op : Op) : Prop :=
  op ∈ Op.allSteps ops ∨ ∃ name program, reg.partialOps name = some program ∧
    op ∈ Op.allSteps program

/-- An element with a literal name and attribute keys is written. -/
def WritesTag (reg : Registry) (ops : List Op) (tag : Bytes) (keys : List Bytes) : Prop :=
  ∃ values children, reg.Writes ops (.element [.literal tag] values children) ∧
    keys = values.map Prod.fst

/-- An element with these attribute keys is written, and if its name is a single literal then it is
this tag. -/
def WritesElement (reg : Registry) (ops : List Op) (tag : Bytes) (keys : List Bytes) : Prop :=
  ∃ name values children, reg.Writes ops (.element name values children) ∧
    keys = values.map Prod.fst ∧ ∀ t, name = [.literal t] → tag = t

theorem writesTag_of_literal
    {reg : Registry} {ops : List Op}
    (hliteral : ∀ name values children, reg.Writes ops (.element name values children) →
      ∃ t, name = [.literal t])
    {tag : Bytes} {keys : List Bytes}
    (h : reg.WritesElement ops tag keys) :
    reg.WritesTag ops tag keys := by
  obtain ⟨name, values, children, hwritten, hkeys, htag⟩ := h
  obtain ⟨t, rfl⟩ := hliteral name values children hwritten
  obtain rfl := htag t rfl
  exact ⟨values, children, hwritten, hkeys⟩

/-- Programs without trusted paths turn plain values into texts and written elements. -/
def plainContract (reg : Registry) (ops : List Op) : Contract where
  step := fun op => reg.Writes ops op ∧ ∀ p ∈ op.paths, p.trusted = false
  value := Value.Plain
  node := fun n => ∀ m ∈ n.parts, m.MadeOf (reg.WritesElement ops)
  failure := fun _ => True

section PlainContract

variable {reg : Registry} {ops : List Op}

theorem madeOf_element
    {name : List Op} {values : List (Bytes × List Op)} {children : List Op}
    (hstep : reg.Writes ops (.element name values children))
    (l : Linkage) (s : Scope) (r : Run)
    {attributes : List (Bytes × Bytes)}
    (hkeys : attributes.map Prod.fst = values.map Prod.fst)
    (nodes : List Node) :
    Node.MadeOf (reg.WritesElement ops)
      (.element (Node.textOf (Op.renderAll l name s r).1) attributes nodes) := by
  refine ⟨name, values, children, hstep, hkeys, ?_⟩
  rintro t rfl
  simp [Op.renderAll, Op.render, Render.append, Render.nothing, Node.textOf, Node.content]

theorem plainContract_kept
    (hhelpers : ∀ name helper, reg.helper name = some helper → (name, helper) ∈ Helper.builtins)
    (hescaped : ∀ op, reg.Writes ops op → ∀ p ∈ op.paths, p.trusted = false) :
    (reg.plainContract ops).Kept reg where
  null := Value.everywhere_null Value.common_plain
  constant := Value.everywhere_constant Value.common_plain
  get := fun v key hv => Value.Everywhere.get hv key
  trust := by
    intro op hstep p hp htrusted
    rw [hstep.2 p hp] at htrusted
    cases htrusted
  included := fun base parameters => Value.everywhere_includedData Value.common_plain
  display := by
    intro v hv n hn m hm
    rw [hv.display] at hn
    obtain rfl := List.mem_singleton.1 hn
    obtain rfl := List.mem_singleton.1 hm
    trivial
  literal := by
    intro s _ m hm
    obtain rfl := List.mem_singleton.1 hm
    trivial
  element := by
    intro name values children hstep l s r r' attributes hkeys hnodes m hm
    rcases List.mem_cons.1 hm with rfl | hm
    · exact madeOf_element hstep.1 l s r hkeys _
    · obtain ⟨n, hn, hmem⟩ := Node.mem_allParts.1 hm
      exact hnodes n hn m hmem
  helper := fun name helper hhelper =>
    Contract.helper_builtins rfl Value.common_plain (fun _ => trivial) _
      (hhelpers name helper hhelper)
  partialOps := by
    intro name program hprogram op hop
    have hwritten : reg.Writes ops op := Or.inr ⟨name, program, hprogram, hop⟩
    exact ⟨hwritten, hescaped op hwritten⟩
  noHelper := fun _ _ _ _ _ _ _ _ => trivial
  noPartial := fun _ _ _ _ _ => trivial
  within := fun _ _ _ => trivial
  unsupported := fun _ => trivial
  recursion := fun _ _ => trivial
  exhausted := trivial

/-- What a program without trusted paths renders plain data to. -/
theorem madeOf_render
    (hhelpers : ∀ name helper, reg.helper name = some helper → (name, helper) ∈ Helper.builtins)
    (hescaped : ∀ op, reg.Writes ops op → ∀ p ∈ op.paths, p.trusted = false)
    {data : Value}
    (hdata : data.Plain)
    {bound fuel : Nat} {nodes : List Node}
    (hrender : Stencil.render reg bound fuel ops data = .ok nodes) :
    ∀ m ∈ Node.allParts nodes, m.MadeOf (reg.WritesElement ops) := by
  have hops : (reg.plainContract ops).Program ops :=
    fun op hop => ⟨Or.inl hop, hescaped op (Or.inl hop)⟩
  have hnodes := (plainContract_kept hhelpers hescaped).render hops hdata hrender
  intro m hm
  obtain ⟨n, hn, hmem⟩ := Node.mem_allParts.1 hm
  exact hnodes n hn m hmem

end PlainContract

end Registry

/-- With built-in helpers only, no trusted paths and plain data, no trusted markup is rendered.  If
moreover all elements have literal names, then every element is one that some template writes, with
its attribute keys, and the rest of the markup is inert. -/
theorem data_injects_no_markup
    {reg : Registry}
    (hhelpers : ∀ name helper, reg.helper name = some helper → (name, helper) ∈ Helper.builtins)
    {ops : List Op}
    (hescaped : ∀ op, reg.Writes ops op → ∀ p ∈ op.paths, p.trusted = false)
    {data : Value}
    (hdata : data.Plain)
    {bound fuel : Nat} {nodes : List Node}
    (hrender : render reg bound fuel ops data = .ok nodes) :
    (∀ n ∈ Node.allParts nodes, ∀ markup, n ≠ .raw markup) ∧
      ((∀ name values children, reg.Writes ops (.element name values children) →
          ∃ t, name = [.literal t]) →
        (∀ tag attributes children, .element tag attributes children ∈ Node.allParts nodes →
          reg.WritesTag ops tag (attributes.map Prod.fst)) ∧
        ∃ markup, Node.html nodes = some markup ∧ SafeMarkup (reg.WritesTag ops) markup) := by
  have hmade := Registry.madeOf_render hhelpers hescaped hdata hrender
  refine ⟨fun n hn markup hraw => ?_, fun hliteral => ?_⟩
  · subst hraw
    exact hmade _ hn
  · have hwritten : ∀ m ∈ Node.allParts nodes, m.MadeOf (reg.WritesTag ops) :=
      fun m hm => (hmade m hm).mono fun tag keys => Registry.writesTag_of_literal hliteral
    exact ⟨fun tag attributes children hn => hwritten _ hn, Node.html_of_madeOf hwritten⟩

/-- A list that shows every guest by a partial. -/
def guestList : List Op :=
  [.element [.literal (utf8 "ul")] [(utf8 "class", [.interpolation { segments := [utf8 "kind"] }])]
    [.block (utf8 "each") [.path { segments := [utf8 "guests"] }] []
      [.inclusion (utf8 "guest") none [(utf8 "name", .path {})]] none false]]

/-- The partial that shows one guest. -/
def guestItem : List Op :=
  [.element [.literal (utf8 "li")] [] [.interpolation { segments := [utf8 "name"] }]]

/-- The built-in helpers and one partial. -/
def guestRegistry : Registry where
  helper := fun name => Helper.builtins.lookup name
  partialOps := fun name => if name = utf8 "guest" then some guestItem else none

/-- Data that try to leave an attribute value and to open a tag. -/
def hostileGuests : Value :=
  .record [(utf8 "kind", .text (utf8 "x\" onclick=\"y")),
    (utf8 "guests", .list [.text (utf8 "<script>"), .text (utf8 "Ann & Bob")])] []

theorem plain_hostileGuests :
    hostileGuests.Plain := by
  have hguests : (Value.list [.text (utf8 "<script>"), .text (utf8 "Ann & Bob")]).Plain := by
    refine Value.everywhere_list Value.common_plain fun v hv => ?_
    simp only [List.mem_cons, List.not_mem_nil, or_false] at hv
    rcases hv with rfl | rfl <;> exact Value.everywhere_text Value.common_plain _
  refine Value.everywhere_record Value.common_plain (fun f hf => ?_) fun f hf => by cases hf
  simp only [List.mem_cons, List.not_mem_nil, or_false] at hf
  rcases hf with rfl | rfl
  · exact Value.everywhere_text Value.common_plain _
  · exact hguests

theorem guestRegistry_writes
    {op : Op}
    (h : guestRegistry.Writes guestList op) :
    op ∈ Op.allSteps guestList ++ Op.allSteps guestItem := by
  rcases h with hlist | ⟨name, program, hprogram, hitem⟩
  · exact List.mem_append_left _ hlist
  · simp only [guestRegistry] at hprogram
    split at hprogram
    · cases hprogram
      exact List.mem_append_right _ hitem
    · cases hprogram

theorem guestList_injects_no_markup :
    ∃ nodes, render guestRegistry 64 0 guestList hostileGuests = .ok nodes ∧
      (∀ n ∈ Node.allParts nodes, ∀ markup, n ≠ .raw markup) ∧
      ∃ markup, Node.html nodes = some markup ∧
        SafeMarkup (guestRegistry.WritesTag guestList) markup := by
  have hhelpers : ∀ name helper, guestRegistry.helper name = some helper →
      (name, helper) ∈ Helper.builtins := by
    intro name helper hhelper
    obtain ⟨before, after, hsplit, _⟩ := List.lookup_eq_some_iff.1 hhelper
    simp [hsplit]
  have hescaped : ∀ op ∈ Op.allSteps guestList ++ Op.allSteps guestItem,
      ∀ p ∈ op.paths, p.trusted = false := by
    decide
  have hliteral : ∀ name values children,
      .element name values children ∈ Op.allSteps guestList ++ Op.allSteps guestItem →
        ∃ t, name = [.literal t] := by
    intro name values children h
    simp only [guestList, guestItem, Op.allSteps, Op.steps, Op.attributeSteps, Op.inverseSteps,
      List.append_nil, List.nil_append, List.cons_append, List.mem_cons, List.not_mem_nil,
      Op.element.injEq, reduceCtorEq, or_false, false_or] at h
    rcases h with ⟨rfl, _⟩ | ⟨rfl, _⟩ <;> exact ⟨_, rfl⟩
  obtain ⟨nodes, hrender⟩ :
      ∃ nodes, render guestRegistry 64 0 guestList hostileGuests = .ok nodes := ⟨_, rfl⟩
  obtain ⟨hraw, hwritten⟩ := data_injects_no_markup hhelpers
    (fun op hop => hescaped op (guestRegistry_writes hop)) plain_hostileGuests hrender
  obtain ⟨_, hmarkup⟩ := hwritten fun name values children hop =>
    hliteral name values children (guestRegistry_writes hop)
  exact ⟨nodes, hrender, hraw, hmarkup⟩

end Stencil
