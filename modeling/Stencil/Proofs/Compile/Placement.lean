import Stencil.Proofs.Compile.Forest
import Stencil.Proofs.Markup.Tiling

/-!
# Where faults are placed

Every fragment of a template has a span inside of the source, and so has every fault, since a fault
has the span of a fragment or of the rest of a text.  In a text, the span of an expression is
exactly the part of the source from its opening to its closing braces.

Results: `Tree.read_inPlace` for the fragments of a source, and `compile_error_placed` for faults.
-/

namespace Stencil

/-! ## Fragments -/

/-- Whether a mark is literal text. -/
def Mark.isLiteral : Mark → Bool
  | .literal _ => true
  | .interpolation _ | .opening .. | .otherwise | .closing _ | .inclusion .. => false

/-- A text from two opening braces to two closing ones. -/
def Bytes.Braced (s : Bytes) : Prop := ∃ inner, s = Form.plain.opener ++ inner ++ Form.plain.closer

/-- A fragment lies in a source, and if it is no literal, then it covers an expression there. -/
def Fragment.Covers (source : Bytes) (f : Fragment) : Prop :=
  f.span.Within source.length ∧
    (f.mark.isLiteral = false → (Bytes.slice source f.span.start f.span.stop).Braced)

theorem Chunk.braced_source
    (form : Form) (payload : Bytes) :
    (Chunk.expression form payload).source.Braced := by
  cases form with
  | plain =>
      exact ⟨payload, rfl⟩
  | triple =>
      have hopener : Form.triple.opener = Form.plain.opener ++ [Ascii.lbrace] := rfl
      have hcloser : Form.triple.closer = [Ascii.rbrace] ++ Form.plain.closer := rfl
      refine ⟨[Ascii.lbrace] ++ payload ++ [Ascii.rbrace], ?_⟩
      simp only [Chunk.source, hopener, hcloser, List.append_assoc]
  | comment =>
      have hopener : Form.comment.opener = Form.plain.opener ++ utf8 "!--" := rfl
      have hcloser : Form.comment.closer = utf8 "--" ++ Form.plain.closer := rfl
      refine ⟨utf8 "!--" ++ payload ++ utf8 "--", ?_⟩
      simp only [Chunk.source, hopener, hcloser, List.append_assoc]

namespace Fragment

/-- All fragments of a chunk have its span, and only an expression gives marks other than literals. -/
theorem ofChunk_inPlace
    {P : Span → Prop} {Q : Fragment → Prop}
    (isHelper : Bytes → Bool) {site : Site} {offset : Nat} {c : Chunk} {span : Span}
    (hsite : site.span offset (offset + c.source.length) = span)
    (hspan : P span)
    (hmark : ∀ mark : Mark,
      (mark.isLiteral = false → ∃ form payload, c = .expression form payload) → Q ⟨span, mark⟩) :
    InPlace P (fun fs => ∀ f ∈ fs, Q f) (ofChunk isHelper site offset c) := by
  unfold ofChunk
  simp only [hsite]
  cases c with
  | literal s =>
      intro f hf
      obtain rfl := List.mem_singleton.1 hf
      exact hmark _ fun hliteral => nomatch hliteral
  | expression form payload =>
      simp only
      split
      · intro f hf
        obtain ⟨mark, _, rfl⟩ := List.mem_map.1 hf
        exact hmark mark fun _ => ⟨form, payload, rfl⟩
      · exact hspan

section Text

variable {source front text back : Bytes} (hsource : source = front ++ text ++ back)

include hsource in
/-- A chunk of a text that stands in a source. -/
theorem ofChunk_text_inPlace
    (isHelper : Bytes → Bool) {done more : Bytes} {c : Chunk}
    (htext : text = done ++ (c.source ++ more)) :
    InPlace (fun span => span.Within source.length) (fun fs => ∀ f ∈ fs, f.Covers source)
      (ofChunk isHelper (.text front.length) done.length c) := by
  subst htext
  have hsplit : source = (front ++ done) ++ c.source ++ (more ++ back) := by
    simp only [hsource, List.append_assoc]
  have hspan : (Site.text front.length).span done.length (done.length + c.source.length) =
      ⟨(front ++ done).length, (front ++ done).length + c.source.length⟩ := by
    simp only [Site.span, Span.shift, List.length_append, Span.mk.injEq]
    omega
  have hwithin : Span.Within ⟨(front ++ done).length, (front ++ done).length + c.source.length⟩
      source.length := by
    rw [hsplit]
    simp only [Span.Within, List.length_append]
    omega
  have hslice : Bytes.slice source (front ++ done).length
      ((front ++ done).length + c.source.length) = c.source := by
    rw [hsplit]
    exact Bytes.slice_append _ _ _
  refine ofChunk_inPlace isHelper hspan hwithin fun mark hexpression => ⟨hwithin, fun hmark => ?_⟩
  obtain ⟨form, payload, rfl⟩ := hexpression hmark
  simp only [hslice]
  exact Chunk.braced_source form payload

include hsource in
/-- The chunks of a text that stands in a source, after some are done. -/
theorem ofChunks_text_inPlace
    (isHelper : Bytes → Bool) {unclosed : Option Form} {done left : Bytes} {chunks : List Chunk}
    (htext : text = done ++ (chunks.flatMap Chunk.source ++ left)) :
    InPlace (fun span => span.Within source.length) (fun fs => ∀ f ∈ fs, f.Covers source)
      (ofChunks isHelper (.text front.length) text.length unclosed done.length chunks) := by
  induction chunks generalizing done with
  | nil =>
      cases unclosed with
      | none =>
          intro f hf
          cases hf
      | some form =>
          simp only [ofChunks, InPlace, Site.span, Span.shift, Span.Within, hsource, htext,
            List.length_append]
          omega
  | cons c rest ih =>
      have hfirst : text = done ++ (c.source ++ (rest.flatMap Chunk.source ++ left)) := by
        simp only [htext, List.flatMap_cons, List.append_assoc]
      have hrest : text = (done ++ c.source) ++ (rest.flatMap Chunk.source ++ left) := by
        simp only [hfirst, List.append_assoc]
      have hmore := ih hrest
      rw [List.length_append] at hmore
      refine (ofChunk_text_inPlace hsource isHelper hfirst).bind fun fs hfs => ?_
      refine hmore.bind fun gs hgs => ?_
      exact List.forall_mem_append.2 ⟨hfs, hgs⟩

include hsource in
/-- The fragments of a text that stands in a source. -/
theorem read_text_inPlace
    (isHelper : Bytes → Bool) :
    InPlace (fun span => span.Within source.length) (fun fs => ∀ f ∈ fs, f.Covers source)
      (read isHelper (.text front.length) text) := by
  obtain ⟨left, hleft, _⟩ := scan_append text
  have htext : text = [] ++ ((scan text).chunks.flatMap Chunk.source ++ left) := hleft.symm
  exact ofChunks_text_inPlace hsource isHelper htext

end Text

/-- The fragments of a name or an attribute value share the span of their tag. -/
theorem read_tag_inPlace
    {P : Span → Prop} {span : Span}
    (hspan : P span)
    (isHelper : Bytes → Bool) (s : Bytes) :
    InPlace P (fun fs => ∀ f ∈ fs, P f.span) (read isHelper (.tag span) s) := by
  unfold read
  generalize (scan s).chunks = chunks
  generalize 0 = offset
  induction chunks generalizing offset with
  | nil =>
      cases (scan s).unclosed with
      | none =>
          intro f hf
          cases hf
      | some form =>
          exact hspan
  | cons c rest ih =>
      have hfirst : InPlace P (fun fs => ∀ f ∈ fs, P f.span)
          (ofChunk isHelper (.tag span) offset c) :=
        ofChunk_inPlace isHelper rfl hspan fun mark _ => hspan
      refine hfirst.bind fun fs hfs => ?_
      refine (ih (offset + c.source.length)).bind fun gs hgs => ?_
      exact List.forall_mem_append.2 ⟨hfs, hgs⟩

end Fragment

/-! ## White space -/

namespace Whitespace

/-- Stripping keeps where a fragment stands and whether it is a literal. -/
theorem exists_of_mem_stripAll
    {fs : List Fragment} {g : Fragment}
    (hg : g ∈ stripAll fs) :
    ∃ f ∈ fs, g.span = f.span ∧ g.mark.isLiteral = f.mark.isLiteral := by
  obtain ⟨f, hf, hstrip⟩ := List.mem_filterMap.1 hg
  refine ⟨f, hf, ?_⟩
  unfold stripFragment at hstrip
  split at hstrip
  · next s hmark =>
      split at hstrip
      · cases hstrip
      · obtain rfl := Option.some.inj hstrip
        exact ⟨rfl, by rw [hmark]; rfl⟩
  · obtain rfl := Option.some.inj hstrip
    exact ⟨rfl, rfl⟩

theorem mem_of_mem_dropFront
    {fs : List Fragment} {f : Fragment}
    (hf : f ∈ dropFront fs) :
    f ∈ fs := by
  unfold dropFront at hf
  split at hf
  · split at hf
    · exact List.mem_cons_of_mem _ hf
    · exact hf
  · exact hf

theorem mem_of_mem_compact
    {fs : List Fragment} {f : Fragment}
    (hf : f ∈ compact fs) :
    f ∈ stripAll fs := by
  have hback : f ∈ dropFront (dropFront (stripAll fs)).reverse := List.mem_reverse.1 hf
  exact mem_of_mem_dropFront (List.mem_reverse.1 (mem_of_mem_dropFront hback))

end Whitespace

/-! ## Trees -/

namespace Tree

/-- Parts that stand in the source: the fragments of a text cover their expressions, and those of a
tag lie in the source. -/
def Parts.placed (source : Bytes) : Parts where
  name := fun fs => ∀ f ∈ fs, f.span.Within source.length
  entry := fun a => ∀ f ∈ a.2, f.span.Within source.length
  text := fun fs => ∀ f ∈ fs, f.Covers source

/-- The fragments of a tree stand in the source. -/
abbrev Placed (source : Bytes) (t : Tree) : Prop := t.MadeOf (.placed source)

variable {source : Bytes}

namespace Builder

variable (r : Reading)

theorem readAttribute_inPlace
    {P : Span → Prop} {span : Span}
    (hspan : P span)
    (a : Markup.Attribute) :
    InPlace P (fun b => ∀ f ∈ b.2, P f.span) (readAttribute r span a) := by
  refine (Fragment.read_tag_inPlace hspan r.isHelper a.value).bind fun fs hfs => ?_
  intro g hg
  simp only at hg
  split at hg
  · exact hfs g hg
  · obtain ⟨f, hf, hat, _⟩ := Whitespace.exists_of_mem_stripAll hg
    rw [hat]
    exact hfs f hf

theorem readText_inPlace
    {raw : Bytes} {span : Span}
    (hspan : span.Within source.length)
    (hraw : Bytes.slice source span.start span.stop = raw) :
    InPlace (fun span => span.Within source.length) (fun fs => ∀ f ∈ fs, f.Covers source)
      (readText r raw span) := by
  have hsource : source = source.take span.start ++ raw ++ source.drop span.stop := by
    rw [← hraw]
    exact (Bytes.append_slice_append hspan.1).symm
  have hfront : (source.take span.start).length = span.start := by
    rw [List.length_take, Nat.min_eq_left (Nat.le_trans hspan.1 hspan.2)]
  have hread := Fragment.read_text_inPlace hsource r.isHelper
  rw [hfront] at hread
  unfold readText
  split
  · intro f hf
    cases hf
  · refine hread.bind fun fs hfs => ?_
    intro g hg
    split at hg
    · exact hfs g hg
    · obtain ⟨f, hf, hat, hliteral⟩ := 
        Whitespace.exists_of_mem_stripAll (Whitespace.mem_of_mem_compact hg)
      have hcovers := hfs f hf
      unfold Fragment.Covers
      rwa [hat, hliteral]

theorem supplies_placed
    {e : Markup.Event}
    (he : e.Placed source) :
    Supplies r (fun span => span.Within source.length) (.placed source) e := by
  cases e with
  | openTag name attributes span =>
      exact ⟨Fragment.read_tag_inPlace he r.isHelper name, fun a _ => readAttribute_inPlace r he a⟩
  | text raw span =>
      exact readText_inPlace r he.1 he.2
  | closeTag span =>
      trivial

end Builder

/-- The fragments that are read from a source stand in it. -/
theorem read_inPlace
    (r : Reading) (source : Bytes) :
    InPlace (fun span => span.Within source.length) (fun trees => ∀ t ∈ trees, t.Placed source)
      (read r source) :=
  ofEvents_inPlace fun e he => Builder.supplies_placed r (Markup.events_placed source e he)

end Tree

/-! ## Compilation -/

namespace Compile

variable {P : Span → Prop}

/-- A matcher whose open blocks have spans of some kind. -/
def Matcher.Opened (P : Span → Prop) (m : Matcher) : Prop := ∀ b ∈ m.stack, P b.span

theorem OpenBlock.span_add
    (op : Op) (b : OpenBlock) :
    (b.add op).span = b.span := by
  unfold OpenBlock.add
  split <;> rfl

theorem Matcher.Opened.add
    {m : Matcher}
    (hm : m.Opened P)
    (op : Op) :
    (m.add op).Opened P := by
  obtain ⟨stack, ops⟩ := m
  cases stack with
  | nil =>
      exact hm
  | cons b stack =>
      obtain ⟨hb, hstack⟩ := List.forall_mem_cons.1 hm
      refine List.forall_mem_cons.2 ⟨?_, hstack⟩
      rwa [OpenBlock.span_add]

theorem Matcher.Opened.mark
    {names : Names} {outer : Nat} {m m' : Matcher} {span : Span} {mark : Mark}
    (hm : m.Opened P)
    (hspan : P span)
    (h : m.mark names outer span mark = .ok m') :
    m'.Opened P := by
  cases mark with
  | literal s =>
      obtain rfl := Except.ok.inj h
      exact hm.add _
  | interpolation path =>
      obtain ⟨checked, _, h⟩ := bind_eq_ok_iff.1 h
      obtain rfl := Except.ok.inj h
      exact hm.add _
  | inclusion name context parameters =>
      rw [Matcher.mark] at h
      split at h
      · obtain ⟨context, _, h⟩ := bind_eq_ok_iff.1 h
        obtain ⟨parameters, _, h⟩ := bind_eq_ok_iff.1 h
        obtain rfl := Except.ok.inj h
        exact hm.add _
      · cases h
  | opening name arguments synthetic =>
      rw [Matcher.mark] at h
      split at h
      · obtain ⟨checked, _, h⟩ := bind_eq_ok_iff.1 h
        obtain rfl := Except.ok.inj h
        exact List.forall_mem_cons.2 ⟨hspan, hm⟩
      · cases h
  | otherwise =>
      obtain ⟨stack, ops⟩ := m
      cases stack with
      | nil =>
          cases h
      | cons b stack =>
          obtain ⟨hb, hstack⟩ := List.forall_mem_cons.1 hm
          simp only [Matcher.mark] at h
          split at h
          · cases h
          · obtain rfl := Except.ok.inj h
            exact List.forall_mem_cons.2 ⟨hb, hstack⟩
  | closing name =>
      obtain ⟨stack, ops⟩ := m
      cases stack with
      | nil =>
          cases h
      | cons b stack =>
          obtain ⟨_, hstack⟩ := List.forall_mem_cons.1 hm
          have hrest : Matcher.Opened P ⟨stack, ops⟩ := hstack
          simp only [Matcher.mark] at h
          split at h
          · obtain rfl := Except.ok.inj h
            exact hrest.add _
          · cases h

theorem Matcher.Opened.fragment
    {m : Matcher} {f : Fragment}
    (hm : m.Opened P)
    (hf : P f.span)
    (names : Names) (outer : Nat) :
    InPlace P (Matcher.Opened P) (m.fragment names outer f) := by
  unfold Matcher.fragment
  cases h : m.mark names outer f.span f.mark with
  | ok m' =>
      exact hm.mark hf h
  | error cause =>
      exact hf

theorem Matcher.Opened.finish
    {m : Matcher}
    (hm : m.Opened P) :
    InPlace P (fun _ => True) m.finish := by
  unfold Matcher.finish
  split
  · trivial
  · next b stack hstack =>
      have hb : b ∈ m.stack := hstack ▸ List.mem_cons_self
      exact hm b hb

theorem Matcher.opened_empty : Matcher.Opened P {} :=
  fun _ hb => absurd hb List.not_mem_nil

theorem fragments_inPlace
    (names : Names) (outer : Nat) {fs : List Fragment}
    (hfs : ∀ f ∈ fs, P f.span) :
    InPlace P (fun _ => True) (fragments names outer fs) := by
  have hsteps := InPlace.foldlM
    (fun f hf m hm => Matcher.Opened.fragment hm (hfs f hf) names outer) Matcher.opened_empty
  exact hsteps.bind fun m hm => hm.finish

theorem attributeOps_inPlace
    (names : Names) (outer : Nat) {a : Bytes × List Fragment}
    (ha : ∀ f ∈ a.2, P f.span) :
    InPlace P (fun _ => True) (attributeOps names outer a) :=
  (fragments_inPlace names outer ha).bind fun _ _ => trivial

variable {source : Bytes}

mutual

theorem node_inPlace
    (names : Names) (outer : Nat) (m : Matcher) (t : Tree)
    (hm : m.Opened fun span => span.Within source.length)
    (ht : t.Placed source) :
    InPlace (fun span => span.Within source.length)
      (Matcher.Opened fun span => span.Within source.length) (node names outer m t) := by
  cases ht with
  | text hfs =>
      rw [node]
      exact InPlace.foldlM (fun f hf m hm => hm.fragment (hfs f hf).1 names outer) hm
  | element hname hattributes hchildren =>
      next span name attributes children =>
      have hname : ∀ f ∈ name, f.span.Within source.length := hname
      have hattributes : ∀ a ∈ attributes, ∀ f ∈ a.2, f.span.Within source.length := hattributes
      rw [node]
      refine (fragments_inPlace names _ hname).bind fun _ _ => ?_
      refine (InPlace.mapM fun a ha => attributeOps_inPlace names _ (hattributes a ha)).bind
        fun _ _ => ?_
      refine (nodes_inPlace names _ {} children Matcher.opened_empty hchildren).bind fun _ _ => ?_
      exact hm.add _

theorem nodes_inPlace
    (names : Names) (outer : Nat) (m : Matcher) (trees : List Tree)
    (hm : m.Opened fun span => span.Within source.length)
    (htrees : ∀ t ∈ trees, t.Placed source) :
    InPlace (fun span => span.Within source.length) (fun _ => True)
      (nodes names outer m trees) := by
  cases trees with
  | nil =>
      rw [nodes]
      exact hm.finish
  | cons t rest =>
      obtain ⟨ht, hrest⟩ := List.forall_mem_cons.1 htrees
      rw [nodes]
      refine (node_inPlace names outer m t hm ht).bind fun m' hm' => ?_
      exact nodes_inPlace names outer m' rest hm' hrest

end

end Compile

/-- A fault of a source lies in it. -/
theorem compile_error_placed
    {reading : Reading} {names : Names} {name source : Bytes} {d : Diagnostic}
    (h : compile reading names name source = .error d) :
    d.source = source ∧ d.fault.span.Within source.length := by
  have hresult : InPlace (fun span => span.Within source.length) (fun _ => True)
      (Tree.read reading source >>= Compile.forest names) :=
    (Tree.read_inPlace reading source).bind fun trees htrees =>
      Compile.nodes_inPlace names 0 {} trees Compile.Matcher.opened_empty htrees
  unfold compile at h
  simp only at h
  split at h
  · cases h
  · next fault hfault =>
      obtain rfl := Except.error.inj h
      rw [hfault] at hresult
      exact ⟨rfl, hresult⟩

end Stencil
