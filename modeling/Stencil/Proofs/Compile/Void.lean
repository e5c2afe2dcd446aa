import Stencil.Node
import Stencil.Proofs.Compile.Forest

/-!
# Elements without content

Two lists say which elements have no content: the tags that close at once when a source is read, and
the tags that are written without content.  The second list has three names more.

Algorithm: a start tag of the first list gives an opening and a closing event, one right behind the
other, so nothing can be attached in between.  Between the tokens of a source no element with such a
name is open, and an element that is open to the end or closed by a tag of another name is none of
them.

Result: `Tree.voidsEmpty_of_read`, for every element of the forest of a source.
-/

namespace Stencil

namespace Markup

/-- The elements that are written without content but do not close at once. -/
def openVoids : List Bytes := ["command", "keygen", "param"].map utf8

theorem mem_voidNames_of_mem_voidTags
    {tag : Bytes}
    (htag : tag ∈ Node.voidTags)
    (hclosed : tag ∉ openVoids) :
    tag ∈ voidNames := by
  have hsplit : ∀ t ∈ Node.voidTags, t ∈ openVoids ∨ t ∈ voidNames := by decide
  exact (hsplit tag htag).resolve_left hclosed

/-- A tag known by the name of a void element closes at once. -/
theorem contains_of_tagName_mem
    {written : Bytes}
    (h : tagName written ∈ voidNames) :
    voidNames.contains (written.map Ascii.toLower) = true := by
  rw [List.contains_iff_mem]
  unfold tagName at h
  split at h
  · have hlower : ∀ t ∈ voidNames, t.map Ascii.toLower = t := by decide
    rwa [hlower written h]
  · exact h

end Markup

namespace Tree

mutual

/-- A node and all nodes below it. -/
def parts : Tree → List Tree
  | element span name attributes children =>
    element span name attributes children :: allParts children
  | text span fragments => [text span fragments]

/-- The nodes of a forest at any depth. -/
def allParts : List Tree → List Tree
  | [] => []
  | t :: rest => parts t ++ allParts rest

end

theorem allParts_append
    (front back : List Tree) :
    allParts (front ++ back) = allParts front ++ allParts back := by
  induction front with
  | nil =>
      rfl
  | cons t rest ih =>
      simp only [List.cons_append, allParts, ih, List.append_assoc]

theorem allParts_singleton
    (t : Tree) :
    allParts [t] = t.parts := by
  simp only [allParts, List.append_nil]

/-- The tag of an element: a tag that opens where the element begins, with a name that is read as
the name of the element. -/
def TagOf (r : Reading) (events : List Markup.Event) (span : Span) (name : List Fragment)
    (tag : Bytes) : Prop :=
  ∃ attributes tagSpan, .openTag tag attributes tagSpan ∈ events ∧ tagSpan.start = span.start ∧
    Fragment.read r.isHelper (.tag tagSpan) tag = .ok name

/-- An element is read from a tag, and has no children if that is the tag of a void element. -/
def VoidEmpty (r : Reading) (events : List Markup.Event) : Tree → Prop
  | element span name _ children =>
    ∃ tag, TagOf r events span name tag ∧ (tag ∈ Markup.voidNames → children = [])
  | text .. => True

/-- All void elements of a forest are without children. -/
def VoidsEmpty (r : Reading) (events : List Markup.Event) (trees : List Tree) : Prop :=
  ∀ t ∈ allParts trees, t.VoidEmpty r events

variable {r : Reading} {events : List Markup.Event}

theorem VoidsEmpty.append
    {trees : List Tree} {t : Tree}
    (htrees : VoidsEmpty r events trees)
    (ht : VoidsEmpty r events [t]) :
    VoidsEmpty r events (trees ++ [t]) := by
  intro u hu
  rw [allParts_append] at hu
  rcases List.mem_append.1 hu with h | h
  · exact htrees u h
  · exact ht u h

theorem voidsEmpty_text
    (span : Span) (fragments : List Fragment) :
    VoidsEmpty r events [.text span fragments] := by
  intro u hu
  rw [allParts_singleton] at hu
  obtain rfl := List.mem_singleton.1 hu
  trivial

theorem voidsEmpty_element
    {span : Span} {name : List Fragment} {attributes : List (Bytes × List Fragment)}
    {children : List Tree} {tag : Bytes}
    (htag : TagOf r events span name tag)
    (hempty : tag ∈ Markup.voidNames → children = [])
    (hchildren : VoidsEmpty r events children) :
    VoidsEmpty r events [.element span name attributes children] := by
  intro u hu
  rw [allParts_singleton] at hu
  rcases List.mem_cons.1 hu with rfl | hbelow
  · exact ⟨tag, htag, hempty⟩
  · exact hchildren u hbelow

/-- An open element that may get children: it is not the element of a void tag. -/
structure Open.MayFill (r : Reading) (events : List Markup.Event) (e : Open) : Prop where
  tag : ∃ tag, TagOf r events e.span e.name tag ∧ tag ∉ Markup.voidNames
  children : VoidsEmpty r events e.children

theorem Open.MayFill.close
    {e : Open}
    (h : e.MayFill r events)
    (stop : Nat) :
    VoidsEmpty r events [e.close stop] := by
  obtain ⟨tag, htag, hfilled⟩ := h.tag
  exact voidsEmpty_element htag (fun hvoid => absurd hvoid hfilled) h.children

theorem Open.MayFill.append
    {e : Open} {t : Tree}
    (h : e.MayFill r events)
    (ht : VoidsEmpty r events [t]) :
    Open.MayFill r events { e with children := e.children ++ [t] } :=
  ⟨h.tag, h.children.append ht⟩

namespace Builder

/-- Between two tokens all open elements may get children. -/
structure VoidsEmpty (r : Reading) (events : List Markup.Event) (b : Builder) : Prop where
  stack : ∀ e ∈ b.stack, e.MayFill r events
  roots : Tree.VoidsEmpty r events b.roots

theorem VoidsEmpty.attach
    {b : Builder} {t : Tree}
    (hb : b.VoidsEmpty r events)
    (ht : Tree.VoidsEmpty r events [t]) :
    (b.attach t).VoidsEmpty r events := by
  obtain ⟨stack, roots⟩ := b
  cases stack with
  | nil =>
      exact ⟨hb.stack, hb.roots.append ht⟩
  | cons e stack =>
      obtain ⟨he, hstack⟩ := List.forall_mem_cons.1 hb.stack
      exact ⟨List.forall_mem_cons.2 ⟨he.append ht, hstack⟩, hb.roots⟩

theorem VoidsEmpty.close
    {b : Builder}
    (hb : b.VoidsEmpty r events)
    (stop : Nat) :
    (b.close stop).VoidsEmpty r events := by
  obtain ⟨stack, roots⟩ := b
  cases stack with
  | nil =>
      exact hb
  | cons e stack =>
      obtain ⟨he, hstack⟩ := List.forall_mem_cons.1 hb.stack
      have hrest : VoidsEmpty r events ⟨stack, roots⟩ := ⟨hstack, hb.roots⟩
      exact hrest.attach (he.close stop)

/-- Elements that are left open are closed at the end. -/
theorem voidsEmpty_finish
    {stack : List Open} {roots : List Tree}
    (hstack : ∀ e ∈ stack, e.MayFill r events)
    (hroots : Tree.VoidsEmpty r events roots) :
    Tree.VoidsEmpty r events (finish roots stack) := by
  fun_induction finish roots stack with
  | case1 =>
      exact hroots
  | case2 e =>
      exact hroots.append ((hstack e List.mem_cons_self).close _)
  | case3 e outer stack ih =>
      obtain ⟨he, hrest⟩ := List.forall_mem_cons.1 hstack
      obtain ⟨houter, hrest⟩ := List.forall_mem_cons.1 hrest
      exact ih (List.forall_mem_cons.2 ⟨houter.append (he.close _), hrest⟩)

/-- What the opening of a tag adds: an element without children whose name is read from the tag. -/
theorem step_openTag_eq_ok
    {b b' : Builder} {tag : Bytes} {attributes : List Markup.Attribute} {span : Span}
    (hmem : .openTag tag attributes span ∈ events)
    (h : step r b (.openTag tag attributes span) = .ok b') :
    ∃ name values, TagOf r events span name tag ∧
      b' = { b with stack := ⟨span, name, values, []⟩ :: b.stack } := by
  simp only [step, bind_eq_ok_iff, pure_eq_ok_iff] at h
  obtain ⟨name, hname, values, _, rfl⟩ := h
  exact ⟨name, values, ⟨attributes, span, hmem, rfl, hname⟩, rfl⟩

theorem voidsEmpty_nil :
    Tree.VoidsEmpty r events [] := by
  intro t ht
  cases ht

/-- The events of one token leave only elements open that may get children. -/
theorem voidsEmpty_token
    {t : Markup.Token} {source : Bytes} {offset : Nat}
    (hmem : ∀ e ∈ t.events source offset, e ∈ events)
    {b b' : Builder}
    (hb : b.VoidsEmpty r events)
    (h : (t.events source offset).foldlM (step r) b = .ok b') :
    b'.VoidsEmpty r events := by
  cases t with
  | text =>
      simp only [Markup.Token.events, List.foldlM_cons, List.foldlM_nil, step, bind_eq_ok_iff,
        pure_eq_ok_iff] at h
      obtain ⟨_, ⟨fragments, _, rfl⟩, rfl⟩ := h
      split
      · exact hb
      · exact hb.attach (voidsEmpty_text _ fragments)
  | startTag name attributes selfClosing =>
      simp only [Markup.Token.events] at h hmem
      split at h
      · next hcloses =>
          -- The element is closed before anything can be attached to it.
          rw [if_pos hcloses] at hmem
          simp only [List.foldlM_cons, List.foldlM_nil, bind_eq_ok_iff, pure_eq_ok_iff] at h
          obtain ⟨opened, hopened, closed, hclosed, rfl⟩ := h
          obtain ⟨fragments, values, htag, rfl⟩ :=
            step_openTag_eq_ok (hmem _ List.mem_cons_self) hopened
          cases hclosed
          exact hb.attach (voidsEmpty_element htag (fun _ => rfl) voidsEmpty_nil)
      · next hstays =>
          rw [if_neg hstays] at hmem
          simp only [List.foldlM_cons, List.foldlM_nil, bind_eq_ok_iff, pure_eq_ok_iff] at h
          obtain ⟨opened, hopened, rfl⟩ := h
          obtain ⟨fragments, values, htag, rfl⟩ :=
            step_openTag_eq_ok (hmem _ List.mem_cons_self) hopened
          have hfilled : Markup.tagName name ∉ Markup.voidNames := by
            intro hvoid
            rw [Markup.contains_of_tagName_mem hvoid, Bool.or_true] at hstays
            exact hstays rfl
          have hopen : Open.MayFill r events ⟨_, fragments, values, []⟩ :=
            ⟨⟨_, htag, hfilled⟩, voidsEmpty_nil⟩
          exact ⟨List.forall_mem_cons.2 ⟨hopen, hb.stack⟩, hb.roots⟩
  | endTag =>
      cases h
      exact hb.close _
  | skipped =>
      cases h
      exact hb

/-- The events of tokens one after the other. -/
theorem voidsEmpty_tokens
    {tokens : List (Markup.Token × Bytes)} {offset : Nat}
    (hmem : ∀ e ∈ Markup.eventsFrom offset tokens, e ∈ events)
    {b b' : Builder}
    (hb : b.VoidsEmpty r events)
    (h : (Markup.eventsFrom offset tokens).foldlM (step r) b = .ok b') :
    b'.VoidsEmpty r events := by
  induction tokens generalizing offset b with
  | nil =>
      cases h
      exact hb
  | cons token rest ih =>
      obtain ⟨t, source⟩ := token
      simp only [Markup.eventsFrom, List.forall_mem_append] at hmem
      simp only [Markup.eventsFrom, List.foldlM_append, bind_eq_ok_iff] at h
      obtain ⟨middle, hfirst, hrest⟩ := h
      exact ih hmem.2 (voidsEmpty_token hmem.1 hb hfirst) hrest

end Builder

/-- The void elements of the forest of a source have no children, whatever stands behind their
tags. -/
theorem voidsEmpty_of_read
    {source : Bytes} {trees : List Tree}
    (h : read r source = .ok trees) :
    VoidsEmpty r (Markup.events source) trees := by
  simp only [read, ofEvents, bind_eq_ok_iff, pure_eq_ok_iff] at h
  obtain ⟨b, hb, rfl⟩ := h
  have hempty : Builder.VoidsEmpty r (Markup.events source) Builder.empty :=
    ⟨fun e he => absurd he List.not_mem_nil, Builder.voidsEmpty_nil⟩
  have hrun := Builder.voidsEmpty_tokens (fun e he => he) hempty hb
  exact Builder.voidsEmpty_finish hrun.stack hrun.roots

end Tree
end Stencil
