import Mathlib.Data.List.Forall2
import Stencil.Proofs.Compile.Respelling

/-!
# Templates byte by byte

A template is spelled byte by byte when each of its literals is cut into literals of a single byte
and all places are forgotten.  Templates that are spelled alike differ only in where their literals
are cut and in where they stand in a source.  Compiling a template that is spelled byte by byte gives
the program spelled byte by byte, or fails where the template fails.

Results: `Compile.forest_bytewise`, and `Tree.ofEvents_bytewise` for a text that is exchanged for
another one that is spelled alike.
-/

namespace Stencil

/-! ## Checks up to their failures -/

section Checks

variable {ε δ α β α' β' γ γ' : Type}

/-- Checks that both fail, or whose results look the same, followed by such checks. -/
theorem toOption_bind_congr
    {x : Except ε α} {y : Except δ β} {f : α → γ} {f' : β → γ}
    {g : α → Except ε α'} {g' : β → Except δ β'} {h : α' → γ'} {h' : β' → γ'}
    (hxy : x.toOption.map f = y.toOption.map f')
    (hg : ∀ a b, f a = f' b → (g a).toOption.map h = (g' b).toOption.map h') :
    (x >>= g).toOption.map h = (y >>= g').toOption.map h' := by
  cases x with
  | error e =>
      cases y with
      | error e' =>
          rfl
      | ok b =>
          cases hxy
  | ok a =>
      cases y with
      | error e' =>
          cases hxy
      | ok b =>
          exact hg a b (Option.some.inj hxy)

theorem toOption_mapM_congr
    {x : α → Except ε β} {y : α → Except δ β'} {f : β → γ} {f' : β' → γ} {l : List α}
    (h : ∀ a ∈ l, (x a).toOption.map f = (y a).toOption.map f') :
    (l.mapM x).toOption.map (List.map f) = (l.mapM y).toOption.map (List.map f') := by
  induction l with
  | nil =>
      rfl
  | cons a rest ih =>
      obtain ⟨ha, hrest⟩ := List.forall_mem_cons.1 h
      rw [List.mapM_cons, List.mapM_cons]
      refine toOption_bind_congr ha fun b c hbc => ?_
      refine toOption_bind_congr (ih hrest) fun bs cs hbs => ?_
      exact congrArg some (congrArg₂ List.cons hbc hbs)

end Checks

/-! ## Fragments, trees and steps -/

/-- A literal byte by byte, and any other mark as it is. -/
def Mark.bytewise : Mark → List Mark
  | .literal s => s.map fun b => .literal [b]
  | mark => [mark]

namespace Fragment

/-- A mark at no place. -/
def unplaced (mark : Mark) : Fragment := ⟨⟨0, 0⟩, mark⟩

/-- Fragments byte by byte. -/
def bytewise (fs : List Fragment) : List Fragment :=
  ((fs.map mark).flatMap Mark.bytewise).map unplaced

theorem bytewise_cons
    (f : Fragment) (fs : List Fragment) :
    bytewise (f :: fs) = f.mark.bytewise.map unplaced ++ bytewise fs := by
  rw [bytewise, List.map_cons, List.flatMap_cons, List.map_append]
  rfl

theorem map_mark_unplaced
    (ms : List Mark) :
    (ms.map unplaced).map mark = ms := by
  rw [List.map_map]
  exact List.map_id ms

/-! The marks of a text do not depend on where it stands. -/

section Places

variable {isHelper : Bytes → Bool} {site site' : Site}
variable (hliteral : site.literal = site'.literal) (hpayload : site.payload = site'.payload)

include hliteral hpayload

theorem map_mark_ofChunk
    (c : Chunk) (offset offset' : Nat) :
    (ofChunk isHelper site offset c).toOption.map (List.map mark) =
      (ofChunk isHelper site' offset' c).toOption.map (List.map mark) := by
  cases c with
  | literal s =>
      simp only [ofChunk, hliteral]
      rfl
  | expression form payload =>
      simp only [ofChunk, hpayload]
      cases Mark.ofExpression isHelper form (site'.payload payload) with
      | error cause =>
          rfl
      | ok marks =>
          have hmarks : ∀ span : Span, (marks.map (Fragment.mk span)).map mark = marks := by
            intro span
            rw [List.map_map]
            exact List.map_id marks
          exact congrArg some ((hmarks _).trans (hmarks _).symm)

theorem map_mark_ofChunks
    (chunks : List Chunk) (unclosed : Option Form) (length length' offset offset' : Nat) :
    (ofChunks isHelper site length unclosed offset chunks).toOption.map (List.map mark) =
      (ofChunks isHelper site' length' unclosed offset' chunks).toOption.map (List.map mark) := by
  induction chunks generalizing offset offset' with
  | nil =>
      cases unclosed <;> rfl
  | cons c rest ih =>
      rw [ofChunks, ofChunks]
      refine toOption_bind_congr (map_mark_ofChunk hliteral hpayload c offset offset')
        fun fs fs' hfs => ?_
      refine toOption_bind_congr (ih _ _) fun gs gs' hgs => ?_
      refine congrArg some ?_
      rw [List.map_append, List.map_append, hfs, hgs]

theorem map_mark_read
    (s : Bytes) :
    (read isHelper site s).toOption.map (List.map mark) =
      (read isHelper site' s).toOption.map (List.map mark) :=
  map_mark_ofChunks hliteral hpayload _ _ _ _ _ _

end Places

theorem map_mark_read_text
    (isHelper : Bytes → Bool) (offset offset' : Nat) (s : Bytes) :
    (read isHelper (.text offset) s).toOption.map (List.map mark) =
      (read isHelper (.text offset') s).toOption.map (List.map mark) := by
  refine map_mark_read ?_ ?_ s <;> rfl

theorem map_mark_read_tag
    (isHelper : Bytes → Bool) (span span' : Span) (s : Bytes) :
    (read isHelper (.tag span) s).toOption.map (List.map mark) =
      (read isHelper (.tag span') s).toOption.map (List.map mark) := by
  refine map_mark_read ?_ ?_ s <;> rfl

end Fragment

/-! What is dropped of fragments does not depend on where they stand. -/

namespace Whitespace

open Fragment

/-- A fragment without its place. -/
def bare (f : Fragment) : Fragment := unplaced f.mark

theorem map_bare
    (fs : List Fragment) :
    fs.map bare = (fs.map mark).map unplaced := by
  rw [List.map_map]
  rfl

theorem dropFront_bare
    (fs : List Fragment) :
    dropFront (fs.map bare) = (dropFront fs).map bare := by
  match fs with
  | [] | [_] =>
      rfl
  | f :: g :: rest =>
      have hblank : isBlank (bare f) = isBlank f := rfl
      rw [List.map_cons, List.map_cons, dropFront, dropFront, hblank]
      split <;> rfl

theorem dropBack_bare
    (fs : List Fragment) :
    dropBack (fs.map bare) = (dropBack fs).map bare := by
  rw [dropBack, dropBack, ← List.map_reverse, dropFront_bare, List.map_reverse]

theorem stripAll_bare
    (fs : List Fragment) :
    stripAll (fs.map bare) = (stripAll fs).map bare := by
  have hstrip : ∀ f : Fragment, stripFragment (bare f) = (stripFragment f).map bare := by
    rintro ⟨span, mark⟩
    cases mark with
    | literal s =>
        simp only [stripFragment, bare, unplaced]
        split <;> rfl
    | interpolation | opening | otherwise | closing | inclusion =>
        rfl
  rw [stripAll, stripAll, List.filterMap_map, List.map_filterMap]
  exact List.filterMap_congr fun f _ => hstrip f

theorem compact_bare
    (fs : List Fragment) :
    compact (fs.map bare) = (compact fs).map bare := by
  rw [compact, compact, stripAll_bare, dropFront_bare, dropBack_bare]

/-- Fragments with the same marks, treated by something that does not look at places. -/
theorem map_mark_congr
    {f : List Fragment → List Fragment}
    (hf : ∀ fs, f (fs.map bare) = (f fs).map bare)
    {fs gs : List Fragment}
    (h : fs.map mark = gs.map mark) :
    (f fs).map mark = (f gs).map mark := by
  have hread : ∀ fs, (f fs).map mark = (f ((fs.map mark).map unplaced)).map mark := by
    intro fs
    rw [← map_bare, hf, map_bare, map_mark_unplaced]
  rw [hread fs, hread gs, h]

end Whitespace

/-- An event without its place. -/
def Markup.Event.unplaced : Markup.Event → Markup.Event
  | .openTag name attributes _ => .openTag name attributes ⟨0, 0⟩
  | .text raw _ => .text raw ⟨0, 0⟩
  | .closeTag _ => .closeTag ⟨0, 0⟩

namespace Tree

mutual

/-- A node byte by byte; every fragment of a text stands for itself. -/
def bytewise : Tree → List Tree
  | .text _ fs => (Fragment.bytewise fs).map fun f => .text f.span [f]
  | .element _ name attributes children =>
    [.element ⟨0, 0⟩ (Fragment.bytewise name)
      (attributes.map fun a => (a.1, Fragment.bytewise a.2)) (bytewiseAll children)]

/-- Nodes byte by byte. -/
def bytewiseAll : List Tree → List Tree
  | [] => []
  | t :: rest => bytewise t ++ bytewiseAll rest

end

end Tree

namespace Op

mutual

/-- A step byte by byte. -/
def bytewise : Op → List Op
  | .literal s => s.map fun b => .literal [b]
  | .element name attributes children =>
    [.element (bytewiseAll name) (bytewiseAttributes attributes) (bytewiseAll children)]
  | .block name arguments named body inverse synthetic =>
    [.block name arguments named (bytewiseAll body) (bytewiseInverse inverse) synthetic]
  | .interpolation p => [.interpolation p]
  | .inclusion name context parameters => [.inclusion name context parameters]
  | .unknown => [.unknown]

/-- Steps byte by byte. -/
def bytewiseAll : List Op → List Op
  | [] => []
  | op :: rest => bytewise op ++ bytewiseAll rest

/-- Attribute values byte by byte. -/
def bytewiseAttributes : List (Bytes × List Op) → List (Bytes × List Op)
  | [] => []
  | (key, value) :: rest => (key, bytewiseAll value) :: bytewiseAttributes rest

/-- The steps behind an `else` byte by byte. -/
def bytewiseInverse : Option (List Op) → Option (List Op)
  | none => none
  | some ops => some (bytewiseAll ops)

end

theorem bytewiseAttributes_eq_map
    (attributes : List (Bytes × List Op)) :
    bytewiseAttributes attributes = attributes.map fun a => (a.1, bytewiseAll a.2) := by
  induction attributes with
  | nil =>
      rfl
  | cons a rest ih =>
      rw [bytewiseAttributes, ih, List.map_cons]

theorem bytewiseInverse_eq_map
    (inverse : Option (List Op)) :
    bytewiseInverse inverse = inverse.map bytewiseAll := by
  cases inverse <;> rfl

end Op

/-- Spelling byte by byte as a way to respell: all places are forgotten. -/
def Respelling.bytes : Respelling where
  cut s := s.map fun b => [b]
  shift _ := 0
  view _ := none
  fragments := Fragment.bytewise
  name := Fragment.bytewise
  tree := Tree.bytewise
  trees := Tree.bytewiseAll
  op := Op.bytewise
  ops := Op.bytewiseAll
  nameOps := Op.bytewiseAll
  fragments_nil := rfl
  fragments_cons := by
    rintro ⟨span, mark⟩ fs
    rw [Fragment.bytewise_cons]
    cases mark with
    | literal s =>
        rw [Mark.bytewise, Mark.respell, List.map_map, List.map_map, List.map_map]
        rfl
    | interpolation | opening | otherwise | closing | inclusion =>
        rfl
  tree_text := fun _ _ => by rw [Tree.bytewise]
  tree_element := fun _ _ _ _ => by rw [Tree.bytewise]; rfl
  trees_nil := by rw [Tree.bytewiseAll]
  trees_cons := fun _ _ => by rw [Tree.bytewiseAll]
  op_literal := fun _ => by rw [Op.bytewise, List.map_map]; rfl
  op_element := fun _ _ _ => by rw [Op.bytewise, Op.bytewiseAttributes_eq_map]
  op_block := fun _ _ _ _ _ _ => by rw [Op.bytewise, Op.bytewiseInverse_eq_map]
  op_interpolation := fun _ => by rw [Op.bytewise]
  op_inclusion := fun _ _ _ => by rw [Op.bytewise]
  op_unknown := by rw [Op.bytewise]
  ops_nil := by rw [Op.bytewiseAll]
  ops_cons := fun _ _ => by rw [Op.bytewiseAll]
  names := .inr ⟨rfl, rfl⟩
  places := .inr fun _ _ => rfl

/-- Which steps are of known kinds does not depend on where literals are cut. -/
theorem Op.allKnown_bytewiseAll
    (ops : List Op) :
    allKnown (bytewiseAll ops) = allKnown ops :=
  Respelling.bytes.allKnown_ops ops

/-! ## Reading -/

namespace Tree

open Respelling (bytes)

namespace Builder

/-! Events that are read alike: the same event at another place, or texts that are spelled alike. -/

/-- Two events that lead from builders spelled alike to builders spelled alike. -/
def Alike (r : Reading) (e e' : Markup.Event) : Prop :=
  ∀ b b' : Builder, bytes.builder b = bytes.builder b' →
    (step r b e).toOption.map bytes.builder = (step r b' e').toOption.map bytes.builder

variable {r : Reading}

theorem alike_text
    {raw raw' : Bytes} {span span' : Span}
    (h : (readText r raw span).toOption.map Fragment.bytewise =
      (readText r raw' span').toOption.map Fragment.bytewise) :
    Alike r (.text raw span) (.text raw' span') := by
  intro b b' hb
  refine toOption_bind_congr h fun fs gs hfs => congrArg some ?_
  have hfs : bytes.fragments fs = bytes.fragments gs := hfs
  rw [bytes.builder_attach_text, bytes.builder_attach_text, hb, hfs]

theorem readText_unplaced
    (raw : Bytes) (span span' : Span) :
    (readText r raw span).toOption.map (List.map Fragment.mark) =
      (readText r raw span').toOption.map (List.map Fragment.mark) := by
  have hread := Fragment.map_mark_read_text r.isHelper span.start span'.start raw
  unfold readText
  split
  · rfl
  · refine toOption_bind_congr hread fun fs gs hfs => congrArg some ?_
    split
    · exact hfs
    · exact Whitespace.map_mark_congr Whitespace.compact_bare hfs

theorem readAttribute_unplaced
    (a : Markup.Attribute) (span span' : Span) :
    (readAttribute r span a).toOption.map (fun b => (b.1, Fragment.bytewise b.2)) =
      (readAttribute r span' a).toOption.map fun b => (b.1, Fragment.bytewise b.2) := by
  have hread := Fragment.map_mark_read_tag r.isHelper span span' a.value
  refine toOption_bind_congr hread fun fs gs hfs => ?_
  have hmarks : (if r.keepWhitespace then fs else Whitespace.stripAll fs).map Fragment.mark =
      (if r.keepWhitespace then gs else Whitespace.stripAll gs).map Fragment.mark := by
    split
    · exact hfs
    · exact Whitespace.map_mark_congr Whitespace.stripAll_bare hfs
  refine congrArg some (congrArg (Prod.mk a.key) ?_)
  rw [Fragment.bytewise, Fragment.bytewise, hmarks]

/-- The same event at another place. -/
theorem alike_of_unplaced
    {e e' : Markup.Event}
    (h : e.unplaced = e'.unplaced) :
    Alike r e e' := by
  cases e with
  | openTag name attributes span =>
      cases e' with
      | openTag name' attributes' span' =>
          cases h
          intro b b' hb
          have hname := Fragment.map_mark_read_tag r.isHelper span span' name
          refine toOption_bind_congr hname fun fs gs hfs => ?_
          refine toOption_bind_congr (toOption_mapM_congr fun a _ =>
            readAttribute_unplaced a span span') fun as bs has => congrArg some ?_
          obtain ⟨hstack, hroots⟩ := Builder.mk.inj hb
          have hspelled : Fragment.bytewise fs = Fragment.bytewise gs := by
            rw [Fragment.bytewise, Fragment.bytewise, hfs]
          have hopened : bytes.element ⟨span, fs, as, []⟩ = bytes.element ⟨span', gs, bs, []⟩ :=
            congrArg₂ (Open.mk ⟨0, 0⟩ · · []) hspelled has
          simp only [Respelling.builder, List.map_cons, hopened, hstack, hroots]
      | text | closeTag =>
          cases h
  | text raw span =>
      cases e' with
      | text raw' span' =>
          cases h
          refine alike_text ?_
          have hmarks := congrArg (Option.map fun ms => (ms.flatMap Mark.bytewise).map
            Fragment.unplaced) (readText_unplaced (r := r) raw span span')
          rwa [Option.map_map, Option.map_map] at hmarks
      | openTag | closeTag =>
          cases h
  | closeTag span =>
      cases e' with
      | closeTag span' =>
          intro b b' hb
          exact congrArg some (by rw [bytes.builder_close, bytes.builder_close, hb]; rfl)
      | openTag | text =>
          cases h

end Builder

/-- Events that are read alike one by one give forests that are spelled alike. -/
theorem ofEvents_bytewise
    {r : Reading} {events events' : List Markup.Event}
    (h : List.Forall₂ (Builder.Alike r) events events') :
    (ofEvents r events).toOption.map bytewiseAll =
      (ofEvents r events').toOption.map bytewiseAll := by
  have hsteps : ∀ b b' : Builder, bytes.builder b = bytes.builder b' →
      (events.foldlM (Builder.step r) b).toOption.map bytes.builder =
        (events'.foldlM (Builder.step r) b').toOption.map bytes.builder := by
    induction h with
    | nil =>
        intro b b' hb
        exact congrArg some hb
    | cons hevent _ ih =>
        intro b b' hb
        rw [List.foldlM_cons, List.foldlM_cons]
        exact toOption_bind_congr (hevent b b' hb) ih
  refine toOption_bind_congr (hsteps .empty .empty rfl) fun b b' hb => congrArg some ?_
  obtain ⟨hstack, hroots⟩ := Builder.mk.inj hb
  exact (bytes.trees_finish _ _).trans
    ((congrArg₂ Builder.finish hroots hstack).trans (bytes.trees_finish _ _).symm)

end Tree

/-! ## Compiling -/

/-- Forests that are spelled alike are both refused, or compiled to programs that are spelled
alike. -/
theorem Compile.forest_bytewise
    (names : Names) {trees trees' : List Tree}
    (h : Tree.bytewiseAll trees = Tree.bytewiseAll trees') :
    (forest names trees).toOption.map Op.bytewiseAll =
      (forest names trees').toOption.map Op.bytewiseAll := by
  have hforest : ∀ trees, (forest names (Tree.bytewiseAll trees)).toOption =
      (forest names trees).toOption.map Op.bytewiseAll :=
    fun trees => (Respelling.bytes.forest_eq names trees).toOption
  rw [← hforest, ← hforest, h]

end Stencil
