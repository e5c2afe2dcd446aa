import Mathlib.Data.List.Basic
import Stencil.Proofs.Compile.Encoding
import Stencil.Proofs.Compile.Respelling
import Stencil.Proofs.Text.Ink

/-!
# Templates without white space

A template is thinned by deleting the white space of its literals, except in names, and the literals
of which nothing is left.  Whether white space is kept when a template is read makes no difference
to the thinned template, and compiling a thinned template gives the thinned program.

Results:
* `Tree.read_thin`: the thinned forest of a source does not depend on whether white space is kept.
* `compile_thin`: neither do the faults of a source and its thinned program.
-/

namespace Stencil

/-! ## Fragments -/

namespace Fragment

/-- A fragment without the white space of its literal, unless nothing is left of it. -/
def thin (f : Fragment) : Option Fragment :=
  match f.mark with
  | .literal s =>
    if (Text.ink s).isEmpty then none else some { f with mark := .literal (Text.ink s) }
  | _ => some f

/-- Fragments without the white space of their literals. -/
def thinAll (fs : List Fragment) : List Fragment := fs.filterMap thin

theorem thin_of_isBlank
    {f : Fragment}
    (h : Whitespace.isBlank f = true) :
    f.thin = none := by
  unfold Whitespace.isBlank at h
  split at h
  · next s hmark =>
      rw [thin, hmark]
      simp only [Text.ink_eq_nil_of_isBlank h, List.isEmpty_nil, if_true]
  · cases h

end Fragment

namespace Whitespace

open Fragment

theorem thinAll_dropFront
    (fs : List Fragment) :
    thinAll (dropFront fs) = thinAll fs := by
  unfold dropFront
  split
  · split
    · next hblank =>
        rw [thinAll, thinAll, List.filterMap_cons_none (thin_of_isBlank hblank)]
    · rfl
  · rfl

theorem thinAll_dropBack
    (fs : List Fragment) :
    thinAll (dropBack fs) = thinAll fs := by
  have hreverse : ∀ gs : List Fragment, thinAll gs.reverse = (thinAll gs).reverse := fun gs =>
    List.filterMap_reverse
  rw [dropBack, hreverse, thinAll_dropFront, hreverse, List.reverse_reverse]

/-- Stripping takes away white space only. -/
theorem sameInk_strip
    {s : Bytes}
    (hs : isUtf8 s = true) :
    Text.SameInk s (strip s) := by
  obtain ⟨cs, rfl⟩ := isUtf8_iff.1 hs
  have hcontrol : ∀ c, (!isControl c) = false → Text.isSpace c = true := by
    intro c hc
    simp only [isControl, Bool.not_eq_false', Bool.or_eq_true, beq_iff_eq] at hc
    rcases hc with (rfl | rfl) | rfl <;> decide
  rw [strip, shownChars_encodeChars]
  exact Text.SameInk.filter hcontrol

theorem thin_stripFragment
    {f : Fragment}
    (hf : f.mark.Encoded) :
    (stripFragment f).bind thin = f.thin := by
  unfold stripFragment
  split
  · next s hmark =>
      rw [hmark] at hf
      have hink := (sameInk_strip hf).ink_eq
      rw [thin, hmark]
      simp only [hink]
      split
      · next hempty =>
          rw [List.isEmpty_iff.1 hempty]
          rfl
      · rfl
  · rfl

theorem thinAll_stripAll
    {fs : List Fragment}
    (hfs : ∀ f ∈ fs, f.mark.Encoded) :
    thinAll (stripAll fs) = thinAll fs := by
  rw [thinAll, stripAll, List.filterMap_filterMap]
  exact List.filterMap_congr fun f hf => thin_stripFragment (hfs f hf)

theorem thinAll_compact
    {fs : List Fragment}
    (hfs : ∀ f ∈ fs, f.mark.Encoded) :
    thinAll (compact fs) = thinAll fs := by
  rw [compact, thinAll_dropBack, thinAll_dropFront, thinAll_stripAll hfs]

end Whitespace

/-! ## Blank texts -/

/-- The bytes of ASCII in a blank text are white space. -/
theorem Text.isBlank_of_mem
    {s : Bytes} {b : UInt8}
    (hs : isBlank s = true)
    (hmem : b ∈ s)
    (hb : b < 0x80) :
    isBlank [b] = true := by
  rw [← unread_glyphs s] at hmem
  obtain ⟨g, hg, hmem⟩ := List.mem_flatMap.1 hmem
  have hspace := List.all_eq_true.1 hs g hg
  cases g with
  | stray c =>
      cases hspace
  | char c =>
      have hglyphs : glyphs [b] = [.char c] := by
        rw [← Glyph.utf8EncodeChar_eq_of_mem hmem hb]
        simpa [encodeChars] using glyphs_encodeChars [c]
      rw [isBlank, hglyphs]
      simpa using hspace

/-- A blank text is read as a blank literal or as nothing. -/
theorem Fragment.read_of_isBlank
    (isHelper : Bytes → Bool) (offset : Nat) {raw : Bytes}
    (hraw : Text.isBlank raw = true) :
    ∃ fs, read isHelper (.text offset) raw = .ok fs ∧ thinAll fs = [] := by
  have hnone : ∀ b ∈ Ascii.lbrace :: 0 :: Text.escaped, b ∉ raw := by
    intro b hb hmem
    have hascii : ∀ b ∈ Ascii.lbrace :: 0 :: Text.escaped,
        b < 0x80 ∧ Text.isBlank [b] = false := by decide +kernel
    obtain ⟨hlt, hblank⟩ := hascii b hb
    rw [Text.isBlank_of_mem hraw hmem hlt] at hblank
    cases hblank
  have hoccurs : Bytes.occurs Markup.opener raw = false := by
    have happend := Bytes.occurs_append_of_not_mem (hnone Ascii.lbrace List.mem_cons_self) []
    rw [List.append_nil] at happend
    exact happend
  have hdecode : Entity.decode .text raw = raw := by
    have hescape : Text.escapeHtml raw = raw := Text.escapeHtml_of_not_mem fun b hb hmem =>
      hnone b (List.mem_cons_of_mem _ (List.mem_cons_of_mem _ hmem)) hb
    have hdecoded := Text.decode_escapeHtml .text
      (hnone 0 (List.mem_cons_of_mem _ List.mem_cons_self))
    rwa [hescape] at hdecoded
  refine ⟨_, read_of_not_occurs isHelper (.text offset) hoccurs, ?_⟩
  split
  · rfl
  · refine List.filterMap_cons_none (thin_of_isBlank ?_)
    simpa only [Whitespace.isBlank, Site.literal, hdecode] using hraw

/-! ## Trees -/

namespace Tree

mutual

/-- A node without the white space of its literals; every fragment that is left of a text stands for
itself. -/
def thin : Tree → List Tree
  | .text _ fs => (Fragment.thinAll fs).map fun f => .text f.span [f]
  | .element span name attributes children =>
    [.element span name (attributes.map fun a => (a.1, Fragment.thinAll a.2)) (thinAll children)]

/-- Nodes without the white space of their literals. -/
def thinAll : List Tree → List Tree
  | [] => []
  | t :: rest => thin t ++ thinAll rest

end

end Tree

namespace Op

mutual

/-- A step without the white space of its literals, or no step when nothing is left of it. -/
def thin : Op → List Op
  | .literal s => if (Text.ink s).isEmpty then [] else [.literal (Text.ink s)]
  | .element name attributes children =>
    [.element name (thinAttributes attributes) (thinAll children)]
  | .block name arguments named body inverse synthetic =>
    [.block name arguments named (thinAll body) (thinInverse inverse) synthetic]
  | .interpolation p => [.interpolation p]
  | .inclusion name context parameters => [.inclusion name context parameters]
  | .unknown => [.unknown]

/-- Steps without the white space of their literals. -/
def thinAll : List Op → List Op
  | [] => []
  | op :: rest => thin op ++ thinAll rest

/-- Attribute values without the white space of their literals. -/
def thinAttributes : List (Bytes × List Op) → List (Bytes × List Op)
  | [] => []
  | (key, value) :: rest => (key, thinAll value) :: thinAttributes rest

/-- The steps behind an `else` without the white space of their literals. -/
def thinInverse : Option (List Op) → Option (List Op)
  | none => none
  | some ops => some (thinAll ops)

end

theorem thinAttributes_eq_map
    (attributes : List (Bytes × List Op)) :
    thinAttributes attributes = attributes.map fun a => (a.1, thinAll a.2) := by
  induction attributes with
  | nil =>
      rfl
  | cons a rest ih =>
      rw [thinAttributes, ih, List.map_cons]

theorem thinInverse_eq_map
    (inverse : Option (List Op)) :
    thinInverse inverse = inverse.map thinAll := by
  cases inverse <;> rfl

end Op

/-- Thinning as a way to respell: names and places stay as they are. -/
def Respelling.thinning : Respelling where
  cut s := if (Text.ink s).isEmpty then [] else [Text.ink s]
  shift := id
  view := some
  fragments := Fragment.thinAll
  name := id
  tree := Tree.thin
  trees := Tree.thinAll
  op := Op.thin
  ops := Op.thinAll
  nameOps := id
  fragments_nil := rfl
  fragments_cons := by
    rintro ⟨span, mark⟩ fs
    cases mark with
    | literal s =>
        simp only [Fragment.thinAll, List.filterMap_cons, Fragment.thin, Mark.respell]
        cases (Text.ink s).isEmpty <;> rfl
    | interpolation | opening | otherwise | closing | inclusion =>
        rfl
  tree_text := fun _ _ => by rw [Tree.thin]
  tree_element := fun _ _ _ _ => by rw [Tree.thin]; rfl
  trees_nil := by rw [Tree.thinAll]
  trees_cons := fun _ _ => by rw [Tree.thinAll]
  op_literal := by
    intro s
    rw [Op.thin]
    split <;> rfl
  op_element := fun _ _ _ => by rw [Op.thin, Op.thinAttributes_eq_map]; rfl
  op_block := fun _ _ _ _ _ _ => by rw [Op.thin, Op.thinInverse_eq_map]
  op_interpolation := fun _ => by rw [Op.thin]
  op_inclusion := fun _ _ _ => by rw [Op.thin]
  op_unknown := by rw [Op.thin]
  ops_nil := by rw [Op.thinAll]
  ops_cons := fun _ _ => by rw [Op.thinAll]
  names := .inl ⟨rfl, rfl⟩
  places := .inl rfl

/-! ## Reading -/

namespace Tree

open Respelling (thinning)

namespace Builder

/-! The two ways of reading agree up to white space, event by event. -/

theorem readAttribute_thin
    {a : Markup.Attribute}
    (ha : a.Encoded)
    (r : Reading) (span : Span) :
    (readAttribute r span a).map (fun b => (b.1, Fragment.thinAll b.2)) =
      (Fragment.read r.isHelper (.tag span) a.value).map fun fs => (a.key, Fragment.thinAll fs) := by
  have hread := Fragment.read_encoded ha.value r.isHelper (.tag span)
  unfold readAttribute
  cases hfs : Fragment.read r.isHelper (.tag span) a.value with
  | error fault =>
      rfl
  | ok fs =>
      rw [hfs] at hread
      rw [ok_bind]
      cases r.keepWhitespace with
      | true =>
          rfl
      | false =>
          have hstrip := Whitespace.thinAll_stripAll hread
          exact congrArg (fun gs => Except.ok (a.key, gs)) hstrip

theorem readText_thin
    {raw : Bytes}
    (hraw : isUtf8 raw = true)
    (r : Reading) (span : Span) :
    (readText r raw span).map Fragment.thinAll =
      (Fragment.read r.isHelper (.text span.start) raw).map Fragment.thinAll := by
  have hread := Fragment.read_encoded hraw r.isHelper (.text span.start)
  unfold readText
  split
  · next hskip =>
      have hblank : Text.isBlank raw = true := by
        simp only [Bool.and_eq_true] at hskip
        exact hskip.2
      obtain ⟨fs, hfs, hthin⟩ := Fragment.read_of_isBlank r.isHelper span.start hblank
      rw [hfs]
      exact congrArg Except.ok hthin.symm
  · cases hfs : Fragment.read r.isHelper (.text span.start) raw with
    | error fault =>
        rfl
    | ok fs =>
        rw [hfs] at hread
        rw [ok_bind]
        cases r.keepWhitespace with
        | true =>
            rfl
        | false =>
            exact congrArg Except.ok (Whitespace.thinAll_compact hread)

/-- One event. -/
theorem step_thin
    {r r' : Reading} {b b' : Builder} {e : Markup.Event}
    (hr : r.isHelper = r'.isHelper)
    (he : e.Encoded)
    (hb : thinning.builder b = thinning.builder b') :
    (step r b e).map thinning.builder = (step r' b' e).map thinning.builder := by
  cases e with
  | openTag name attributes span =>
      obtain ⟨_, _, hattributes⟩ := he
      have hvalues : (attributes.mapM (readAttribute r span)).map
            (List.map fun b => (b.1, Fragment.thinAll b.2)) =
          (attributes.mapM (readAttribute r' span)).map
            (List.map fun b => (b.1, Fragment.thinAll b.2)) := by
        rw [map_mapM fun a ha => readAttribute_thin (hattributes a ha) r span,
          map_mapM fun a ha => readAttribute_thin (hattributes a ha) r' span, hr]
      simp only [step, hr]
      cases Fragment.read r'.isHelper (.tag span) name with
      | error fault =>
          rfl
      | ok fs =>
          rw [ok_bind, ok_bind]
          refine map_bind_congr hvalues fun as bs hread => congrArg Except.ok ?_
          obtain ⟨hstack, hroots⟩ := Builder.mk.inj hb
          have hopened : thinning.element ⟨span, fs, as, []⟩ = thinning.element ⟨span, fs, bs, []⟩ :=
            congrArg (Open.mk span fs · []) hread
          simp only [Respelling.builder, List.map_cons, hopened, hstack, hroots]
  | text raw span =>
      have htext : (readText r raw span).map Fragment.thinAll =
          (readText r' raw span).map Fragment.thinAll := by
        rw [readText_thin he r span, readText_thin he r' span, hr]
      refine map_bind_congr htext fun fs gs hread => congrArg Except.ok ?_
      have hread : thinning.fragments fs = thinning.fragments gs := hread
      rw [thinning.builder_attach_text, thinning.builder_attach_text, hb, hread]
  | closeTag span =>
      exact congrArg Except.ok (by rw [thinning.builder_close, thinning.builder_close, hb])

end Builder

/-- The thinned forest of a well-formed source does not depend on whether white space is kept. -/
theorem read_thin
    {r r' : Reading} {source : Bytes}
    (hr : r.isHelper = r'.isHelper)
    (hsource : isUtf8 source = true) :
    (read r source).map thinAll = (read r' source).map thinAll := by
  have hsteps : ∀ (events : List Markup.Event) (b b' : Builder), (∀ e ∈ events, e.Encoded) →
      thinning.builder b = thinning.builder b' →
        (events.foldlM (Builder.step r) b).map thinning.builder =
          (events.foldlM (Builder.step r') b').map thinning.builder := by
    intro events
    induction events with
    | nil =>
        intro b b' _ hb
        exact congrArg Except.ok hb
    | cons e rest ih =>
        intro b b' hevents hb
        obtain ⟨he, hrest⟩ := List.forall_mem_cons.1 hevents
        rw [List.foldlM_cons, List.foldlM_cons]
        exact map_bind_congr (Builder.step_thin hr he hb) fun c c' hc => ih c c' hrest hc
  have hread := hsteps _ .empty .empty (Markup.events_encoded hsource) rfl
  refine map_bind_congr hread fun b b' hb => congrArg Except.ok ?_
  obtain ⟨hstack, hroots⟩ := Builder.mk.inj hb
  exact (thinning.trees_finish _ _).trans
    ((congrArg₂ Builder.finish hroots hstack).trans (thinning.trees_finish _ _).symm)

end Tree

/-- A program without the white space of its literals. -/
def Program.thin (p : Program) : Program := ⟨p.name, Op.thinAll p.ops⟩

/-- Whether white space is kept makes no difference to the faults of a well-formed source, nor to
its thinned program. -/
theorem compile_thin
    {r r' : Reading} {source : Bytes}
    (hr : r.isHelper = r'.isHelper)
    (hsource : isUtf8 source = true)
    (names : Names) (name : Bytes) :
    (compile r names name source).map Program.thin =
      (compile r' names name source).map Program.thin := by
  have hcompile : ∀ r : Reading, (compile r names name source).map Program.thin =
      (((Tree.read r source).map Tree.thinAll >>= Compile.forest names).map
        (Program.mk name)).mapError (Diagnostic.mk name source) := by
    intro r
    unfold compile
    cases Tree.read r source with
    | error fault =>
        rfl
    | ok trees =>
        have hforest : Compile.forest names (Tree.thinAll trees) =
            (Compile.forest names trees).map Op.thinAll :=
          (Respelling.thinning.forest_eq names trees).eq rfl
        simp only [Except.map, ok_bind, hforest]
        cases Compile.forest names trees <;> rfl
  rw [hcompile r, hcompile r', Tree.read_thin hr hsource]

/-! ## What thinning keeps -/

namespace Op

/-- Thinning keeps which steps are of known kinds. -/
theorem allKnown_thinAll
    (ops : List Op) :
    allKnown (thinAll ops) = allKnown ops :=
  Respelling.thinning.allKnown_ops ops

theorem allInputs_append
    (ops more : List Op) :
    allInputs (ops ++ more) = allInputs ops ++ allInputs more := by
  induction ops with
  | nil =>
      rfl
  | cons op rest ih =>
      rw [List.cons_append, allInputs, allInputs, ih, List.append_assoc]

mutual

theorem allInputs_thin
    (op : Op) :
    allInputs op.thin = op.inputs := by
  cases op with
  | literal s =>
      rw [thin]
      split <;> rfl
  | element name attributes children =>
      rw [thin, allInputs, allInputs, inputs, inputs, attributeInputs_thin attributes,
        allInputs_thinAll children, List.append_nil]
  | block name arguments named body inverse synthetic =>
      rw [thin, allInputs, allInputs, inputs, inputs, inverseInputs_thin inverse,
        allInputs_thinAll body, List.append_nil]
  | interpolation | inclusion | unknown =>
      simp [thin, allInputs]

/-- Thinning keeps the operands. -/
theorem allInputs_thinAll
    (ops : List Op) :
    allInputs (thinAll ops) = allInputs ops := by
  cases ops with
  | nil =>
      rfl
  | cons op rest =>
      rw [thinAll, allInputs_append, allInputs_thin op, allInputs_thinAll rest, allInputs]

theorem attributeInputs_thin
    (attributes : List (Bytes × List Op)) :
    attributeInputs (thinAttributes attributes) = attributeInputs attributes := by
  cases attributes with
  | nil =>
      rfl
  | cons a rest =>
      rw [thinAttributes, attributeInputs, attributeInputs, allInputs_thinAll a.2,
        attributeInputs_thin rest]

theorem inverseInputs_thin
    (inverse : Option (List Op)) :
    inverseInputs (thinInverse inverse) = inverseInputs inverse := by
  cases inverse with
  | none =>
      rfl
  | some ops =>
      rw [thinInverse, inverseInputs, inverseInputs, allInputs_thinAll ops]

end

end Op

end Stencil
