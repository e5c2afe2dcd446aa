import Stencil.Proofs.Engine.RoundTrip

/-!
# Scripts and style sheets

The content of a script or a style sheet is one run of text for the tokenizer, whatever markup it
seems to hold, and a browser reads no character references in it.  A template treats it like the
text of any other element: the references in it are decoded when it is read, and the characters with
a meaning in markup are escaped when it is written.

So a script comes out as it was written exactly if it is written the way escaping writes texts.  One
that holds a quote, an angle bracket or a bare ampersand comes out as another script.

Results: `Text.escapeHtml_decode_eq_iff` and `rawText_as_written_iff_standing`.
-/

namespace Stencil

/-! ## Texts that stand as escaping writes them -/

namespace Text

/-- The references that escaping writes, behind their ampersands. -/
def references : List Bytes := ["#34;", "#39;", "amp;", "lt;", "gt;"].map utf8

/-- A text as escaping writes it: no NUL, quote or angle bracket, and an ampersand only in front of
one of the references that escaping writes. -/
structure Standing (t : Bytes) : Prop where
  plain : ∀ b ∈ t, b ∉ [0, Ascii.quote, Ascii.apostrophe, Ascii.less, Ascii.greater]
  referring : ∀ front rest, t = front ++ Ascii.ampersand :: rest → ∃ x ∈ references, x <+: rest

theorem Standing.of_append
    {front t : Bytes}
    (h : Standing (front ++ t)) :
    Standing t where
  plain := fun b hb => h.plain b (List.mem_append_right front hb)
  referring := by
    rintro before rest rfl
    exact h.referring (front ++ before) rest (List.append_assoc ..).symm

theorem Standing.append
    {s t : Bytes}
    (hs : Standing s)
    (ht : Standing t) :
    Standing (s ++ t) where
  plain := by
    intro b hb
    rcases List.mem_append.1 hb with hb | hb
    · exact hs.plain b hb
    · exact ht.plain b hb
  referring := by
    intro front rest heq
    rcases List.append_eq_append_iff.1 heq with ⟨before, hfront, htail⟩ | ⟨behind, hs', hrest⟩
    · exact ht.referring before rest htail
    · cases behind with
      | nil =>
          exact ht.referring [] rest hrest.symm
      | cons b behind =>
          obtain ⟨rfl, rfl⟩ := List.cons.inj hrest
          obtain ⟨x, hx, hbegins⟩ := hs.referring front behind hs'
          exact ⟨x, hx, hbegins.trans (List.prefix_append behind t)⟩

theorem standing_of_unescaped
    {t : Bytes}
    (h : ∀ b ∈ t, b ∉ escaped) :
    Standing t where
  plain := by
    intro b hb hmem
    have hspecial : ∀ c ∈ [0, Ascii.quote, Ascii.apostrophe, Ascii.less, Ascii.greater],
        c ∈ escaped := by decide +kernel
    exact h b hb (hspecial b hmem)
  referring := by
    rintro front rest rfl
    exact absurd (by decide) (h Ascii.ampersand (by simp))

theorem standing_reference
    {x : Bytes}
    (hx : x ∈ references) :
    Standing (Ascii.ampersand :: x) where
  plain := by
    have hplain : ∀ x ∈ references, ∀ b ∈ Ascii.ampersand :: x,
        b ∉ [0, Ascii.quote, Ascii.apostrophe, Ascii.less, Ascii.greater] := by decide +kernel
    exact hplain x hx
  referring := by
    intro front rest heq
    have honly : ∀ x ∈ references, Ascii.ampersand ∉ x := by decide +kernel
    cases front with
    | nil =>
        obtain ⟨-, rfl⟩ := List.cons.inj heq
        exact ⟨x, hx, List.prefix_refl x⟩
    | cons b front =>
        obtain ⟨-, rfl⟩ := List.cons.inj heq
        exact absurd (List.mem_append_right front List.mem_cons_self) (honly _ hx)

/-- A byte is written as a reference or as bytes that stand for themselves. -/
theorem escapeByte_cases
    (b : UInt8) :
    (∀ c ∈ escapeByte b, c ∉ escaped) ∨
      ∃ x ∈ references, escapeByte b = Ascii.ampersand :: x := by
  by_cases hb : b ∈ escaped
  · have hescaped : ∀ b ∈ escaped, (∀ c ∈ escapeByte b, c ∉ escaped) ∨
        ∃ x ∈ references, escapeByte b = Ascii.ampersand :: x := by decide +kernel
    exact hescaped b hb
  · refine .inl fun c hc => ?_
    rw [escapeByte_of_not_mem hb] at hc
    obtain rfl := List.mem_singleton.1 hc
    exact hb

theorem standing_escapeHtml
    (s : Bytes) :
    Standing (escapeHtml s) := by
  induction s with
  | nil =>
      exact standing_of_unescaped fun b hb => by cases hb
  | cons b s ih =>
      have hbyte : Standing (escapeByte b) := by
        rcases escapeByte_cases b with hplain | ⟨x, hx, heq⟩
        · exact standing_of_unescaped hplain
        · rw [heq]
          exact standing_reference hx
      exact hbyte.append ih

/-- A text that stands as escaping writes it is written for some text, byte by byte from the
front. -/
theorem Standing.exists_escapeHtml
    {t : Bytes}
    (h : Standing t) :
    ∃ s, 0 ∉ s ∧ escapeHtml s = t := by
  induction hlength : t.length using Nat.strongRecOn generalizing t with
  | ind length ih =>
      cases t with
      | nil =>
          exact ⟨[], List.not_mem_nil, rfl⟩
      | cons b rest =>
          -- What is left behind the byte or the reference at the front is shorter.
          have hfront : ∃ c tail, c ≠ 0 ∧ b :: rest = escapeByte c ++ tail := by
            by_cases hb : b = Ascii.ampersand
            · subst hb
              obtain ⟨x, hx, tail, rfl⟩ := h.referring [] rest rfl
              have hbyte : ∀ x ∈ references, ∃ c ∈ escaped, c ≠ 0 ∧
                  escapeByte c = Ascii.ampersand :: x := by decide +kernel
              obtain ⟨c, -, hc, hescape⟩ := hbyte x hx
              exact ⟨c, tail, hc, by rw [hescape, List.cons_append]⟩
            · have hplain := h.plain b List.mem_cons_self
              have hescaped : b ∉ escaped := by
                simp only [escaped, List.mem_cons, List.not_mem_nil, or_false, not_or] at hplain ⊢
                exact ⟨hplain.1, hplain.2.1, hplain.2.2.1, hb, hplain.2.2.2⟩
              refine ⟨b, rest, fun hzero => hplain (hzero ▸ List.mem_cons_self), ?_⟩
              rw [escapeByte_of_not_mem hescaped, List.singleton_append]
          obtain ⟨c, tail, hc, heq⟩ := hfront
          have hshorter : tail.length < length := by
            have hpos := List.length_pos_iff.2 (escapeByte_ne_nil c)
            rw [heq, List.length_append] at hlength
            omega
          obtain ⟨s, hs, rfl⟩ := ih tail.length hshorter (heq ▸ h).of_append rfl
          exact ⟨c :: s, List.not_mem_cons_of_ne_of_not_mem hc.symm hs, heq.symm⟩

/-- Decoding the references of a text and escaping it again gives the text if and only if it stands
as escaping writes it. -/
theorem escapeHtml_decode_eq_iff
    (place : Entity.Place) (t : Bytes) :
    escapeHtml (Entity.decode place t) = t ↔ Standing t := by
  constructor
  · intro heq
    rw [← heq]
    exact standing_escapeHtml _
  · intro h
    obtain ⟨s, hs, rfl⟩ := h.exists_escapeHtml
    rw [decode_escapeHtml place hs]

end Text

/-! ## Elements with one text -/

/-- The step that renders an element with one text, whatever the data. -/
def Op.ofElement (tag t : Bytes) : Op := .element (Op.ofText tag) [] [.literal t]

theorem Op.render_ofElement
    (reg : Registry) (bound fuel : Nat) (tag t : Bytes) (data : Value) :
    Stencil.render reg bound fuel [Op.ofElement tag t] data = .ok [.element tag [] [.text t]] := by
  have hknown : Op.allKnown [Op.ofElement tag t] = true := by
    cases tag <;> rfl
  obtain ⟨htag, hrun⟩ := Op.renderAll_ofText
    (reg.link (if bound = 0 then none else some bound) (if bound = 0 then fuel else bound)) tag
    (Scope.root data) {}
  simp only [Op.ofElement] at hknown
  simp [Stencil.render, hknown, Op.ofElement, Op.renderAll, Op.render, Op.renderAttributes,
    Render.append, Render.nothing, htag, hrun, outcome]

namespace Tree

theorem Builder.step_literalText
    {r : Reading}
    (hkeep : r.keepWhitespace = true)
    {t : Bytes}
    (ht : t ≠ [])
    (hliteral : Bytes.occurs Markup.opener t = false)
    (b : Builder) (span : Span) :
    ∃ position, step r b (.text t span) =
      .ok (b.attach (.text span [⟨position, .literal (Entity.decode .text t)⟩])) := by
  have hread := Fragment.read_of_not_occurs r.isHelper (.text span.start) hliteral
  have hempty : t.isEmpty = false := List.isEmpty_eq_false_iff.2 ht
  simp only [hempty, Bool.false_eq_true, if_false] at hread
  refine ⟨(Site.text span.start).span 0 t.length, ?_⟩
  simp only [step, readText, hkeep, Bool.not_true, Bool.false_and, Bool.false_eq_true, if_false,
    if_true, hread, ok_bind]
  rfl

section Events

variable {r : Reading} (hkeep : r.keepWhitespace = true)
variable {tag t source : Bytes} (htag : Markup.isPlainName tag = true) (ht : t ≠ [])
variable (hliteral : Bytes.occurs Markup.opener t = false) {first middle last : Span}
variable (hevents : Markup.events source = [.openTag tag [] first, .text t middle, .closeTag last])

include hkeep htag ht hliteral hevents in
/-- An element with one text without expressions is read as one tree, whose step renders the text
with its references decoded. -/
theorem read_of_events :
    ∃ tree : Tree, Tree.read r source = .ok [tree] ∧
      tree.CompilesTo (Op.ofElement tag (Entity.decode .text t)) := by
  have hnone : ∀ a ∈ ([] : List (Bytes × Bytes)), Text.Readable a.2 := fun a ha => by cases ha
  have hopen : Builder.step r Builder.empty (.openTag tag [] first) =
      .ok ⟨[Builder.opened first tag []], []⟩ :=
    Builder.step_openTag hkeep htag hnone Builder.empty first
  obtain ⟨position, htext⟩ := Builder.step_literalText hkeep ht hliteral
    ⟨[Builder.opened first tag []], []⟩ middle
  have hchildren : ∀ names depth, Compiled names depth (Item.ofForest [.text middle
      [⟨position, .literal (Entity.decode .text t)⟩]]) [.literal (Entity.decode .text t)] :=
    fun names depth => compilesTo_text middle position _ names depth [] [] .nil
  refine ⟨_, ?_, compilesTo_element ⟨first.start, last.stop⟩ first tag [] hchildren⟩
  rw [Tree.read, hevents, ofEvents]
  simp only [List.foldlM_cons, List.foldlM_nil, hopen, htext, ok_bind]
  change Except.ok (Builder.finish _ []) = _
  rw [Builder.finish]
  rfl

include hkeep htag ht hliteral hevents in
theorem compile_of_events
    (names : Names) (label : Bytes) :
    Stencil.compile r names label source =
      .ok ⟨label, [Op.ofElement tag (Entity.decode .text t)]⟩ := by
  obtain ⟨tree, htree, hcompiles⟩ := read_of_events hkeep htag ht hliteral hevents
  have hforest : Compile.forest names [tree] = .ok [Op.ofElement tag (Entity.decode .text t)] :=
    Compile.nodes_eq_ok_iff.2 (hcompiles names 0 [] [] .nil)
  simp only [Stencil.compile, htree, ok_bind, hforest]

end Events

end Tree

/-! ## Raw text -/

/-- The elements of scripts and of style sheets. -/
def codeNames : List Bytes := [utf8 "script", utf8 "style"]

theorem html_ofElement
    {tag : Bytes}
    (htag : Node.voidTags.contains tag = false)
    (t : Bytes) :
    Node.html [.element tag [] [.text t]] =
      some (startTag tag [] ++ Text.escapeHtml t ++ endTag tag) := by
  have hhtml : Node.toHtml (.element tag [] [.text t]) =
      startTag tag [] ++ (Text.escapeHtml t ++ endTag tag) := by
    rw [Node.toHtml_element, htag]
    simp [Node.escapedAttributes, Node.forestHtml, Node.toHtml]
  simp [Node.html, Node.allWritable, Node.isWritable, Node.forestHtml, hhtml]

/-- An element without content has no text. -/
theorem ne_nil_of_events
    {tag t : Bytes}
    (htag : tag ∈ codeNames)
    {first middle last : Span}
    (hevents : Markup.events (startTag tag [] ++ t ++ endTag tag) =
      [.openTag tag [] first, .text t middle, .closeTag last]) :
    t ≠ [] := by
  rintro rfl
  have hlength : ∀ tag ∈ codeNames,
      (Markup.events (startTag tag [] ++ [] ++ endTag tag)).length = 2 := by decide +kernel
  have hthree := hlength tag htag
  rw [hevents] at hthree
  cases hthree

/-- Scripts and style sheets are rendered like other texts: with their references decoded, and then
escaped.  So they come out as written if and only if they stand as escaping writes texts. -/
theorem rawText_as_written_iff_standing
    {e : Engine}
    (hkeep : e.keepWhitespace = true)
    {tag : Bytes}
    (htag : tag ∈ codeNames)
    {t : Bytes}
    (hliteral : Bytes.occurs Markup.opener t = false)
    {first middle last : Span}
    (hevents : Markup.events (startTag tag [] ++ t ++ endTag tag) =
      [.openTag tag [] first, .text t middle, .closeTag last])
    (label : Bytes) :
    ∃ program nodes, e.compile label (startTag tag [] ++ t ++ endTag tag) = .ok program ∧
      (∀ (later : Engine) (data : Datum), later.render program.ops data = .ok nodes) ∧
      nodes = [.element tag [] [.text (Entity.decode .text t)]] ∧
      Node.html nodes =
        some (startTag tag [] ++ Text.escapeHtml (Entity.decode .text t) ++ endTag tag) ∧
      (Node.html nodes = some (startTag tag [] ++ t ++ endTag tag) ↔ Text.Standing t) := by
  have hplain : ∀ tag ∈ codeNames, Markup.isPlainName tag = true := by decide +kernel
  have hvoid : ∀ tag ∈ codeNames, Node.voidTags.contains tag = false := by decide +kernel
  have hhtml := html_ofElement (hvoid tag htag) (Entity.decode .text t)
  refine ⟨_, _, Tree.compile_of_events hkeep (hplain tag htag) (ne_nil_of_events htag hevents)
    hliteral hevents _ label, fun later data => Op.render_ofElement _ _ _ _ _ _, rfl, hhtml, ?_⟩
  rw [hhtml, Option.some.injEq, List.append_left_inj, List.append_right_inj]
  exact Text.escapeHtml_decode_eq_iff .text t

/-- A style sheet that refers to angle brackets in a comment. -/
def styleSample : Bytes := utf8 "/* &lt;a&gt; */ p \x7b color: red \x7d"

theorem rawText_of_styleSample :
    let source := startTag (utf8 "style") [] ++ styleSample ++ endTag (utf8 "style")
    Markup.events source =
        [.openTag (utf8 "style") [] ⟨0, 7⟩, .text styleSample ⟨7, 39⟩, .closeTag ⟨39, 47⟩] ∧
      ∃ program nodes, ({ keepWhitespace := true } : Engine).compile Engine.unnamed source =
          .ok program ∧
        (∀ (later : Engine) (data : Datum), later.render program.ops data = .ok nodes) ∧
        Node.html nodes = some source := by
  intro source
  have hevents : Markup.events source =
      [.openTag (utf8 "style") [] ⟨0, 7⟩, .text styleSample ⟨7, 39⟩, .closeTag ⟨39, 47⟩] := by
    with_unfolding_all rfl
  have hescaped : Text.escapeHtml (utf8 "/* <a> */ p \x7b color: red \x7d") = styleSample := by
    decide +kernel
  have hstanding : Text.Standing styleSample := hescaped ▸ Text.standing_escapeHtml _
  obtain ⟨program, nodes, hcompile, hrender, -, -, hwritten⟩ :=
    rawText_as_written_iff_standing (e := { keepWhitespace := true }) rfl (by decide)
      (by decide +kernel) hevents Engine.unnamed
  exact ⟨hevents, program, nodes, hcompile, hrender, hwritten.2 hstanding⟩

/-- A script that compares and quotes. -/
def scriptSample : Bytes := utf8 "if (a < b) f(\"x\")"

/-- The comparison and the quotes come out as references, which a script does not know. -/
theorem scriptSample_not_as_written :
    let source := startTag (utf8 "script") [] ++ scriptSample ++ endTag (utf8 "script")
    Markup.events source =
        [.openTag (utf8 "script") [] ⟨0, 8⟩, .text scriptSample ⟨8, 25⟩, .closeTag ⟨25, 34⟩] ∧
      ∃ program nodes, ({ keepWhitespace := true } : Engine).compile Engine.unnamed source =
          .ok program ∧
        (∀ (later : Engine) (data : Datum), later.render program.ops data = .ok nodes) ∧
        Node.html nodes = some (utf8 "<script>if (a &lt; b) f(&#34;x&#34;)</script>") ∧
        Node.html nodes ≠ some source := by
  intro source
  have hevents : Markup.events source =
      [.openTag (utf8 "script") [] ⟨0, 8⟩, .text scriptSample ⟨8, 25⟩, .closeTag ⟨25, 34⟩] := by
    with_unfolding_all rfl
  have hkeep : (⟨({} : Engine).hasHelper, true⟩ : Reading).keepWhitespace = true := rfl
  refine ⟨hevents, _, _, Tree.compile_of_events hkeep (by decide +kernel) (by decide +kernel)
    (by decide +kernel) hevents _ Engine.unnamed, fun later data => Op.render_ofElement _ _ _ _ _ _,
    by decide +kernel, by decide +kernel⟩

end Stencil
