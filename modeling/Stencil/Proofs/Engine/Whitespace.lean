import Stencil.Proofs.Engine.Session
import Stencil.Proofs.Render.Thinning

/-!
# White space of templates

Two engines with the same helpers, one of which keeps the white space of templates, are given the
same partials and the same template.  Either both report the same error, or both compile programs
that differ in the white space of literals only, and what these write differs in white space only.

Texts are compared character by character, so they have to be well-formed: the sources, the data,
and the constants that the sources write as quoted texts, in which escapes can stand for any byte.

Algorithm: the engines stay twins while partials are loaded, because compiling gives the same thinned
programs, and rendering gives the same ink as rendering the thinned programs.

Result: `compaction_keeps_ink`.
-/

namespace Stencil

namespace Engine

/-- The partials of an engine without the white space of their literals. -/
def thinPartials (e : Engine) : List (Bytes × List Op) :=
  e.partials.map fun p => (p.1, Op.thinAll p.2)

/-- Two engines that differ in how they treat white space, and so in the white space of their
partials. -/
structure Twin (e e' : Engine) : Prop where
  helpers : e.helpers = Helper.builtins
  helpers' : e'.helpers = Helper.builtins
  maxDepth : e.maxDepth = e'.maxDepth
  partials : e.thinPartials = e'.thinPartials
  encoded : ∀ p ∈ e.partials, ∀ op ∈ Op.allSteps p.2, op.Encoded
  encoded' : ∀ p ∈ e'.partials, ∀ op ∈ Op.allSteps p.2, op.Encoded

variable {e e' : Engine}

theorem hasPartial_eq
    (e : Engine) (name : Bytes) :
    e.hasPartial name = (e.thinPartials.lookup name).isSome := by
  rw [hasPartial, thinPartials, Fields.lookup_map, Option.isSome_map]

/-- Twins report the same error for a well-formed source, or compile it to the same thinned
program. -/
theorem Twin.compileWith
    (h : e.Twin e')
    (further : Bytes → Bool) (name : Bytes) {source : Bytes}
    (hsource : isUtf8 source = true) :
    (e.compileWith further name source).map Program.thin =
      (e'.compileWith further name source).map Program.thin := by
  have hhelper : e.hasHelper = e'.hasHelper := by
    funext n
    rw [hasHelper, hasHelper, h.helpers, h.helpers']
  have hpartial : e.hasPartial = e'.hasPartial := by
    funext n
    rw [hasPartial_eq, hasPartial_eq, h.partials]
  have hreading : Reading.isHelper ⟨e'.hasHelper, e.keepWhitespace⟩ =
      Reading.isHelper ⟨e'.hasHelper, e'.keepWhitespace⟩ := rfl
  unfold Engine.compileWith
  rw [hhelper, hpartial]
  exact compile_thin hreading hsource _ name

theorem Twin.registerPartial
    (h : e.Twin e')
    (name : Bytes) {ops ops' : List Op}
    (hthin : Op.thinAll ops = Op.thinAll ops')
    (hops : ∀ op ∈ Op.allSteps ops, op.Encoded)
    (hops' : ∀ op ∈ Op.allSteps ops', op.Encoded) :
    (e.registerPartial name ops).Twin (e'.registerPartial name ops') where
  helpers := h.helpers
  helpers' := h.helpers'
  maxDepth := h.maxDepth
  partials := by
    have hpartials := h.partials
    unfold thinPartials at hpartials ⊢
    simp only [Engine.registerPartial, Fields.map_insert, hthin, hpartials]
  encoded := by
    intro p hp
    rcases Fields.mem_insert hp with rfl | hold
    · exact hops
    · exact h.encoded p hold
  encoded' := by
    intro p hp
    rcases Fields.mem_insert hp with rfl | hold
    · exact hops'
    · exact h.encoded' p hold

/-- Registering a source keeps engines twins. -/
theorem Twin.registerSource
    (h : e.Twin e')
    (name : Bytes) {source : Bytes}
    (hsource : isUtf8 source = true) :
    Corresponds Twin (e.registerSource name source) (e'.registerSource name source) := by
  have hcompile := Corresponds.of_map_eq (h.compileWith (fun _ => false) name hsource)
  refine hcompile.bind fun p q hpq => .ok ?_
  obtain ⟨hthin, hp, hq⟩ := hpq
  exact h.registerPartial name (Program.mk.inj hthin).2 (encoded_of_compile hsource hp)
    (encoded_of_compile hsource hq)

theorem encoded_of_compileAll
    {named : List (Bytes × Bytes)} {compiled : List (Bytes × List Op)}
    (hnamed : ∀ s ∈ named, isUtf8 s.2 = true)
    (h : e.compileAll named = .ok compiled) :
    ∀ p ∈ compiled, ∀ op ∈ Op.allSteps p.2, op.Encoded := by
  intro p hp
  obtain ⟨name, source, q, hmem, hq, hops⟩ := compiled_of_mem_compileAll h hp
  rw [hops]
  exact encoded_of_compile (hnamed _ hmem) hq

theorem Twin.compileAll
    (h : e.Twin e')
    {named : List (Bytes × Bytes)}
    (hnamed : ∀ s ∈ named, isUtf8 s.2 = true) :
    (e.compileAll named).map (List.map fun p => (p.1, Op.thinAll p.2)) =
      (e'.compileAll named).map (List.map fun p => (p.1, Op.thinAll p.2)) := by
  have heach : ∀ s ∈ Datum.sorted named, ∀ e : Engine,
      (do
        let p ← e.compileWith (fun n => (named.lookup n).isSome) s.1 s.2
        return (s.1, p.ops) : Except Diagnostic (Bytes × List Op)).map
          (fun p => (p.1, Op.thinAll p.2)) =
        ((e.compileWith (fun n => (named.lookup n).isSome) s.1 s.2).map Program.thin).map
          fun p => (s.1, p.ops) := by
    intro s _ e
    cases e.compileWith (fun n => (named.lookup n).isSome) s.1 s.2 <;> rfl
  unfold Engine.compileAll
  rw [map_mapM fun s hs => heach s hs e, map_mapM fun s hs => ?_]
  rw [heach s hs e', h.compileWith _ _ (hnamed s (List.mem_mergeSort.1 hs))]

/-- Loading sources together keeps engines twins. -/
theorem Twin.loadPartials
    (h : e.Twin e')
    {sources : Except Bytes (List (Bytes × Bytes))}
    (hsources : ∀ listed, sources = .ok listed → ∀ s ∈ listed, isUtf8 s.2 = true) :
    Corresponds Twin (e.loadPartials sources) (e'.loadPartials sources) := by
  cases sources with
  | error message =>
      exact .error _
  | ok listed =>
      have hnamed : ∀ s ∈ Fields.insertAll listed [], isUtf8 s.2 = true := by
        intro s hs
        rcases Fields.mem_insertAll hs with hlisted | hnone
        · exact hsources listed rfl s hlisted
        · cases hnone
      have hcompile := (Corresponds.of_map_eq (h.compileAll hnamed)).mapError LoadError.template
      refine hcompile.bind fun compiled compiled' hboth => .ok ?_
      obtain ⟨hthin, hcompiled, hcompiled'⟩ := hboth
      refine ⟨h.helpers, h.helpers', h.maxDepth, ?_, ?_, ?_⟩
      · have hpartials := h.partials
        unfold thinPartials at hpartials ⊢
        simp only [Fields.map_insertAll, hthin, hpartials]
      · intro p hp
        rcases Fields.mem_insertAll hp with hnew | hold
        · exact encoded_of_compileAll hnamed hcompiled p hnew
        · exact h.encoded p hold
      · intro p hp
        rcases Fields.mem_insertAll hp with hnew | hold
        · exact encoded_of_compileAll hnamed hcompiled' p hnew
        · exact h.encoded' p hold

/-- Whether the constants of a program, and of the partials that it may call, are well-formed. -/
def hasUtf8Constants (e : Engine) (ops : List Op) : Bool :=
  (Op.allInputs ops).all Operand.isUtf8 &&
    e.partials.all fun p => (Op.allInputs p.2).all Operand.isUtf8

/-- A well-formed program writes the same as its thinned form, up to white space. -/
theorem render_thin
    {ops : List Op} {data : Datum}
    (hhelpers : e.helpers = Helper.builtins)
    (hpartials : ∀ p ∈ e.partials, ∀ op ∈ Op.allSteps p.2, op.Encoded)
    (hops : ∀ op ∈ Op.allSteps ops, op.Encoded)
    (hconstants : e.hasUtf8Constants ops = true)
    (hdata : data.toValue.isUtf8 = true) :
    Render.inkOf (e.render ops data) =
      Render.inkOf (Stencil.render ⟨fun n => Helper.builtins.lookup n,
        fun n => e.thinPartials.lookup n⟩ e.maxDepth.toNat fuel (Op.thinAll ops) data.toValue) := by
  simp only [hasUtf8Constants, Bool.and_eq_true, List.all_eq_true] at hconstants
  have hregistry : e.registry.Wellformed := by
    refine ⟨fun name helper hhelper => ?_, fun name ops hops => ?_⟩
    · have hbuiltin : Helper.builtins.lookup name = some helper := hhelpers ▸ hhelper
      exact Helper.uniform_builtins hbuiltin
    · obtain ⟨before, after, hsplit, _⟩ := List.lookup_eq_some_iff.1 hops
      have hmem : (name, ops) ∈ e.partials := by simp [hsplit]
      exact ⟨hpartials _ hmem, hconstants.2 _ hmem⟩
  have hthin : e.registry.thin =
      ⟨fun n => Helper.builtins.lookup n, fun n => e.thinPartials.lookup n⟩ := by
    simp only [Registry.thin, registry, hhelpers, thinPartials, Fields.lookup_map]
  rw [Engine.render, Stencil.render_thin hregistry ⟨hops, hconstants.1⟩ hdata, hthin]

/-- The constants of twins are the same. -/
theorem Twin.hasUtf8Constants
    (h : e.Twin e')
    {ops ops' : List Op}
    (hthin : Op.thinAll ops = Op.thinAll ops') :
    e.hasUtf8Constants ops = e'.hasUtf8Constants ops' := by
  have hinputs : Op.allInputs ops = Op.allInputs ops' := by
    rw [← Op.allInputs_thinAll ops, hthin, Op.allInputs_thinAll]
  have hpartials : ∀ e : Engine,
      (e.partials.all fun p => (Op.allInputs p.2).all Operand.isUtf8) =
        e.thinPartials.all fun p => (Op.allInputs p.2).all Operand.isUtf8 := by
    intro e
    rw [thinPartials, List.all_map]
    simp only [Function.comp_def, Op.allInputs_thinAll]
  rw [Engine.hasUtf8Constants, Engine.hasUtf8Constants, hinputs, hpartials e, hpartials e',
    h.partials]

/-- Partials given as sources: one of them, or several that may call each other. -/
inductive Loading where
  | one (name source : Bytes)
  | together (sources : Except Bytes (List (Bytes × Bytes)))

/-- Whether the sources are well-formed. -/
def Loading.isUtf8 : Loading → Bool
  | .one _ source => Stencil.isUtf8 source
  | .together (.ok sources) => sources.all fun s => Stencil.isUtf8 s.2
  | .together (.error _) => true

/-- The engine with further partials. -/
def load (e : Engine) : Loading → Except LoadError Engine
  | .one name source => (e.registerSource name source).mapError .template
  | .together sources => e.loadPartials sources

/-- The engine with partials, and a template that may call them. -/
def prepare (e : Engine) (loadings : List Loading) (name source : Bytes) :
    Except LoadError (Engine × Program) := do
  let e ← loadings.foldlM load e
  let p ← (e.compile name source).mapError .template
  return (e, p)

/-- Loading keeps engines twins. -/
theorem Twin.load
    (h : e.Twin e')
    {loading : Loading}
    (hloading : loading.isUtf8 = true) :
    Corresponds Twin (e.load loading) (e'.load loading) := by
  cases loading with
  | one name source =>
      exact (h.registerSource name hloading).mapError _
  | together sources =>
      refine h.loadPartials fun listed hlisted => ?_
      subst hlisted
      exact List.all_eq_true.1 hloading

theorem Twin.loadAll
    (h : e.Twin e')
    {loadings : List Loading}
    (hloadings : ∀ l ∈ loadings, l.isUtf8 = true) :
    Corresponds Twin (loadings.foldlM Engine.load e) (loadings.foldlM Engine.load e') := by
  induction loadings generalizing e e' with
  | nil =>
      exact .ok h
  | cons first rest ih =>
      obtain ⟨hfirst, hrest⟩ := List.forall_mem_cons.1 hloadings
      rw [List.foldlM_cons, List.foldlM_cons]
      exact (h.load hfirst).bind fun d d' hd => ih hd hrest

/-- An engine with the helpers that every engine has and no partials. -/
def fresh (maxDepth : Int) (keepWhitespace : Bool) : Engine := { maxDepth, keepWhitespace }

theorem twin_fresh
    (maxDepth : Int) (keepWhitespace keepWhitespace' : Bool) :
    (fresh maxDepth keepWhitespace).Twin (fresh maxDepth keepWhitespace') where
  helpers := rfl
  helpers' := rfl
  maxDepth := rfl
  partials := rfl
  encoded := fun _ hp => absurd hp List.not_mem_nil
  encoded' := fun _ hp => absurd hp List.not_mem_nil

end Engine

/-- Well-formed partials and a well-formed template are refused with the same error whether white
space is kept or not, or they are compiled to programs that differ in the white space of literals
only.  Where the constants are well-formed, rendering well-formed data then fails alike or writes
the same up to white space. -/
theorem compaction_keeps_ink
    {loadings : List Engine.Loading} {source : Bytes}
    (hloadings : ∀ l ∈ loadings, l.isUtf8 = true)
    (hsource : isUtf8 source = true)
    (name : Bytes) (maxDepth : Int) :
    Corresponds
      (fun compacted kept =>
        compacted.2.thin = kept.2.thin ∧ compacted.1.thinPartials = kept.1.thinPartials ∧
          (compacted.1.hasUtf8Constants compacted.2.ops = true →
            ∀ data : Datum, data.toValue.isUtf8 = true →
              Render.inkOf (compacted.1.render compacted.2.ops data) =
                Render.inkOf (kept.1.render kept.2.ops data)))
      ((Engine.fresh maxDepth false).prepare loadings name source)
      ((Engine.fresh maxDepth true).prepare loadings name source) := by
  refine ((Engine.twin_fresh maxDepth false true).loadAll hloadings).bind fun e e' htwin => ?_
  have hcompile := Corresponds.of_map_eq (htwin.compileWith (fun _ => false) name hsource)
  refine (hcompile.mapError LoadError.template).bind fun p q hpq => .ok ?_
  obtain ⟨hthin, hp, hq⟩ := hpq
  have hops := (Program.mk.inj hthin).2
  refine ⟨hthin, htwin.partials, fun hconstants data hdata => ?_⟩
  have hconstants' := (htwin.hasUtf8Constants hops).symm.trans hconstants
  rw [Engine.render_thin htwin.helpers htwin.encoded (encoded_of_compile hsource hp) hconstants
    hdata, Engine.render_thin htwin.helpers' htwin.encoded' (encoded_of_compile hsource hq)
    hconstants' hdata, htwin.partials, htwin.maxDepth, hops]

/-- What a prepared template writes for data, if it does. -/
def Engine.written (prepared : Except LoadError (Engine × Program)) (data : Datum) : Option Bytes :=
  match prepared with
  | .ok c => (c.1.render c.2.ops data).toOption.bind Node.html
  | .error _ => none

theorem Engine.map_ink_written
    {a b : Engine × Program} {data : Datum}
    (h : Render.inkOf (a.1.render a.2.ops data) = Render.inkOf (b.1.render b.2.ops data)) :
    (written (.ok a) data).map Text.ink = (written (.ok b) data).map Text.ink := by
  have hview : ∀ c : Engine × Program, (written (.ok c) data).map Text.ink =
      (Render.inkOf (c.1.render c.2.ops data)).toOption.join := by
    intro c
    simp only [written, Render.inkOf]
    cases c.1.render c.2.ops data <;> rfl
  rw [hview a, hview b, h]

/-- A list on several lines, whose rows are a partial. -/
def menuSample : Bytes :=
  utf8 (String.join [
    "<ul class=\"a\n b\">\n",
    "\x7b\x7b#each this\x7d\x7d\n\t\x7b\x7b> row\x7d\x7d\n\x7b\x7b/each\x7d\x7d</ul>\n"])

/-- The partial of the rows. -/
def menuLoading : Engine.Loading :=
  .one (utf8 "row") (utf8 "<li>\n\t\x7b\x7bthis\x7d\x7d &amp;\u2003\n</li>")

/-- Two rows, one of them blank. -/
def menuData : Datum := .list [.text (utf8 "tea"), .text (utf8 " \n")]

/-- The two ways to treat white space write different texts with the same ink. -/
theorem compaction_keeps_ink_menuSample :
    let compacted := (Engine.fresh 64 false).prepare [menuLoading] Engine.unnamed menuSample
    let kept := (Engine.fresh 64 true).prepare [menuLoading] Engine.unnamed menuSample
    menuLoading.isUtf8 = true ∧ isUtf8 menuSample = true ∧ menuData.toValue.isUtf8 = true ∧
      Engine.written compacted menuData =
        some (utf8 "<ul class=\"a b\"><li>tea &amp;\u2003</li><li> \n &amp;\u2003</li></ul>") ∧
      Engine.written compacted menuData ≠ Engine.written kept menuData ∧
      (Engine.written compacted menuData).map Text.ink =
        (Engine.written kept menuData).map Text.ink := by
  intro compacted kept
  have hloading : menuLoading.isUtf8 = true := by decide +kernel
  have hsource : isUtf8 menuSample = true := by decide +kernel
  have hdata : menuData.toValue.isUtf8 = true := by decide +kernel
  have hwritten : Engine.written compacted menuData =
      some (utf8 "<ul class=\"a b\"><li>tea &amp;\u2003</li><li> \n &amp;\u2003</li></ul>") := by
    decide +kernel
  have hkept : (Engine.written kept menuData).map List.length = some 77 := by
    decide +kernel
  have hdiffer : Engine.written compacted menuData ≠ Engine.written kept menuData := by
    intro h
    rw [← h, hwritten] at hkept
    exact absurd hkept (by decide +kernel)
  have hconstants : ∀ c, compacted = .ok c → c.1.hasUtf8Constants c.2.ops = true := by
    intro c hc
    have hall : (compacted.toOption.all fun c => c.1.hasUtf8Constants c.2.ops) = true := by
      decide +kernel
    rw [hc] at hall
    exact hall
  refine ⟨hloading, hsource, hdata, hwritten, hdiffer, ?_⟩
  have hsame : Corresponds _ compacted kept := compaction_keeps_ink
    (List.forall_mem_singleton.2 hloading) hsource Engine.unnamed 64
  clear_value compacted kept
  cases hsame with
  | ok h =>
      exact Engine.map_ink_written (h.2.2 (hconstants _ rfl) menuData hdata)
  | error e =>
      rfl

/-- Three constants of one byte each, which make up a character when nothing stands between them. -/
def splitSample : Bytes :=
  utf8 (String.join [
    "\x7b\x7b#with \"\\xe2\"\x7d\x7d\x7b\x7bthis\x7d\x7d\x7b\x7b/with\x7d\x7d\n",
    "\x7b\x7b#with \"\\x80\"\x7d\x7d\x7b\x7bthis\x7d\x7d\x7b\x7b/with\x7d\x7d\n",
    "\x7b\x7b#with \"\\x80\"\x7d\x7d\x7b\x7bthis\x7d\x7d\x7b\x7b/with\x7d\x7d"])

/-- Constants that are not well-formed may be put together to white space. -/
theorem compaction_loses_ink_splitSample :
    let compacted := (Engine.fresh 64 false).prepare [] Engine.unnamed splitSample
    let kept := (Engine.fresh 64 true).prepare [] Engine.unnamed splitSample
    isUtf8 splitSample = true ∧ Datum.null.toValue.isUtf8 = true ∧
      Engine.written compacted .null = some [0xe2, 0x80, 0x80] ∧
      Engine.written kept .null = some [0xe2, 0x0a, 0x80, 0x0a, 0x80] ∧
      (Engine.written compacted .null).map Text.ink = some [] ∧
      (Engine.written kept .null).map Text.ink = some [0xe2, 0x80, 0x80] := by
  intro compacted kept
  have hcompacted : Engine.written compacted .null = some [0xe2, 0x80, 0x80] := by
    decide +kernel
  have hkept : Engine.written kept .null = some [0xe2, 0x0a, 0x80, 0x0a, 0x80] := by
    decide +kernel
  rw [hcompacted, hkept]
  decide +kernel

end Stencil
