import Stencil.Engine
import Stencil.Proofs.Fields
import Stencil.Proofs.Render.Linking

/-!
# Sessions with an engine

A session is a sequence of calls on an engine: helpers and partials are registered, sources are
loaded together, templates are compiled, and each call may fail and then changes nothing.

Every program that the engine has compiled calls registered names only, and a name once registered
stays registered, whatever is registered in its place.  So no program of a session ever meets a
name that is not known, also when partials that were loaded together call each other in a circle.

Results: `Session.Closed.step` and `Session.Closed.run` for the registries,
`compiled_never_meets_unknown_name` for rendering.
-/

namespace Stencil

/-! ## Calls on an engine -/

/-- One call on an engine.  A partial that is registered as a function is a program that the engine
has compiled, given by its number. -/
inductive Operation where
  | registerHelper (name : Bytes) (helper : Helper)
  | registerSource (name source : Bytes)
  | loadPartials (sources : Except Bytes (List (Bytes × Bytes)))
  | registerPartial (name : Bytes) (number : Nat)
  | compile (name source : Bytes)
  | compileNoting (name source : Bytes)

/-- The engine, and all programs that it has compiled so far, as templates or as partials. -/
structure Session where
  engine : Engine
  programs : List (List Op) := []

namespace Session

/-- A new engine. -/
def start (maxDepth : Int) (keepWhitespace : Bool) : Session := ⟨{ maxDepth, keepWhitespace }, []⟩

/-- The engine after partials were compiled and registered. -/
def update (s : Session) (e : Engine) : Session := ⟨e, s.programs ++ e.partials.map Prod.snd⟩

/-- One call; when it fails nothing changes. -/
def step (s : Session) : Operation → Session
  | .registerHelper name helper => { s with engine := s.engine.registerHelper name helper }
  | .registerSource name source =>
    match s.engine.registerSource name source with
    | .ok e => s.update e
    | .error _ => s
  | .loadPartials sources =>
    match s.engine.loadPartials sources with
    | .ok e => s.update e
    | .error _ => s
  | .registerPartial name number =>
    match s.programs[number]? with
    | some ops => { s with engine := s.engine.registerPartial name ops }
    | none => s
  | .compile name source =>
    match s.engine.compile name source with
    | .ok p => { s with programs := s.programs ++ [p.ops] }
    | .error _ => s
  | .compileNoting name source =>
    match s.engine.compileNoting name source with
    | .ok (p, e) => ⟨e, s.programs ++ [p.ops]⟩
    | .error _ => s

/-- Calls one after the other. -/
def run (s : Session) (operations : List Operation) : Session := operations.foldl step s

theorem run_append
    (s : Session) (before after : List Operation) :
    s.run (before ++ after) = (s.run before).run after :=
  List.foldl_append

end Session

/-- The names that an engine has registered. -/
def Engine.names (e : Engine) : Names := ⟨e.hasHelper, e.hasPartial⟩

/-- Programs that call names of the engine only. -/
def Engine.Links (e : Engine) (ops : List Op) : Prop := ∀ op ∈ Op.allSteps ops, e.names.Knows op

/-- No custom helper returns a failure of an unknown name itself. -/
def Operation.Honest : Operation → Prop
  | .registerHelper _ helper => helper.Honest
  | _ => True

/-- All programs of a session call registered names only, and the partials are such programs. -/
structure Session.Closed (s : Session) : Prop where
  linked : ∀ ops ∈ s.programs, s.engine.Links ops
  partials : ∀ entry ∈ s.engine.partials, entry.2 ∈ s.programs
  honest : ∀ entry ∈ s.engine.helpers, entry.2.Honest

section Engines

variable {e : Engine}

theorem Engine.Links.within
    {e' : Engine} {ops : List Op}
    (h : e.Links ops)
    (hnames : e.names.Within e'.names) :
    e'.Links ops :=
  fun op hop => hnames.knows (h op hop)

theorem Engine.within_registerHelper
    (e : Engine) (name : Bytes) (helper : Helper) :
    e.names.Within (e.registerHelper name helper).names where
  helper := fun n hn => (Fields.isSome_lookup_insert name helper e.helpers n).2 (Or.inr hn)
  partialName := fun _ hn => hn

theorem Engine.within_registerPartial
    (e : Engine) (name : Bytes) (ops : List Op) :
    e.names.Within (e.registerPartial name ops).names where
  helper := fun _ hn => hn
  partialName := fun n hn => (Fields.isSome_lookup_insert name ops e.partials n).2 (Or.inr hn)

/-- A template is compiled against the names of the engine and the further ones. -/
theorem Engine.knows_of_compileWith
    {further : Bytes → Bool} {name source : Bytes} {p : Program}
    (h : e.compileWith further name source = .ok p) :
    ∀ op ∈ Op.allSteps p.ops,
      Names.Knows ⟨e.hasHelper, fun n => further n || e.hasPartial n⟩ op :=
  knows_of_compile h

theorem Engine.links_of_compile
    {name source : Bytes} {p : Program}
    (h : e.compile name source = .ok p) :
    e.Links p.ops := by
  intro op hop
  have hknows := Engine.knows_of_compileWith h op hop
  have hwithin : Names.Within ⟨e.hasHelper, fun n => false || e.hasPartial n⟩ e.names :=
    ⟨fun _ hn => hn, fun _ hn => by simpa [Engine.names] using hn⟩
  exact hwithin.knows hknows

/-- What loading does when it succeeds: every source is compiled, and all programs are registered. -/
theorem Engine.loadPartials_eq_ok
    {sources : Except Bytes (List (Bytes × Bytes))} {e' : Engine}
    (h : e.loadPartials sources = .ok e') :
    ∃ named compiled, e.compileAll named = .ok compiled ∧ e'.helpers = e.helpers ∧
      e'.partials = Fields.insertAll compiled e.partials := by
  simp only [Engine.loadPartials, bind_eq_ok_iff, mapError_eq_ok_iff, pure_eq_ok_iff] at h
  obtain ⟨listed, _, compiled, hcompiled, rfl⟩ := h
  exact ⟨_, compiled, hcompiled, rfl, rfl⟩

theorem Engine.compiled_of_mem_compileAll
    {named : List (Bytes × Bytes)} {compiled : List (Bytes × List Op)} {entry : Bytes × List Op}
    (h : e.compileAll named = .ok compiled)
    (hentry : entry ∈ compiled) :
    ∃ name source p, (name, source) ∈ named ∧
      e.compileWith (fun n => (named.lookup n).isSome) name source = .ok p ∧ entry.2 = p.ops := by
  rw [Engine.compileAll] at h
  obtain ⟨⟨name, source⟩, hmem, hcompile⟩ := (mem_mapM_iff h entry).1 hentry
  simp only [bind_eq_ok_iff, pure_eq_ok_iff] at hcompile
  obtain ⟨p, hp, rfl⟩ := hcompile
  exact ⟨name, source, p, List.mem_mergeSort.1 hmem, hp, rfl⟩

/-- Every source of a loading that succeeds is compiled under its name. -/
theorem Engine.name_mem_compileAll
    {named : List (Bytes × Bytes)} {compiled : List (Bytes × List Op)} {name source : Bytes}
    (h : e.compileAll named = .ok compiled)
    (hmem : (name, source) ∈ named) :
    name ∈ compiled.map Prod.fst := by
  rw [Engine.compileAll] at h
  have hsorted : (name, source) ∈ Datum.sorted named := List.mem_mergeSort.2 hmem
  obtain ⟨entry, hentry⟩ := ok_of_mem_mapM h hsorted
  have hcompiled := (mem_mapM_iff h entry).2 ⟨(name, source), hsorted, hentry⟩
  simp only [bind_eq_ok_iff, pure_eq_ok_iff] at hentry
  obtain ⟨p, _, rfl⟩ := hentry
  exact List.mem_map.2 ⟨(name, p.ops), hcompiled, rfl⟩

theorem Engine.within_insertAll
    {e' : Engine} {compiled : List (Bytes × List Op)}
    (hhelpers : e'.helpers = e.helpers)
    (hpartials : e'.partials = Fields.insertAll compiled e.partials) :
    e.names.Within e'.names where
  helper := by
    intro n hn
    simpa [Engine.names, Engine.hasHelper, hhelpers] using hn
  partialName := by
    intro n hn
    simp only [Engine.names, Engine.hasPartial, hpartials]
    exact (Fields.isSome_lookup_insertAll compiled e.partials n).2 (Or.inr hn)

/-- After a loading the programs that it compiled call registered names only. -/
theorem Engine.links_of_compileAll
    {e' : Engine} {named : List (Bytes × Bytes)} {compiled : List (Bytes × List Op)}
    (h : e.compileAll named = .ok compiled)
    (hhelpers : e'.helpers = e.helpers)
    (hpartials : e'.partials = Fields.insertAll compiled e.partials) :
    ∀ entry ∈ compiled, e'.Links entry.2 := by
  intro entry hentry op hop
  obtain ⟨name, source, p, _, hp, hops⟩ := Engine.compiled_of_mem_compileAll h hentry
  have hknows := Engine.knows_of_compileWith hp op (hops ▸ hop)
  have hold := Engine.within_insertAll hhelpers hpartials
  have hwithin : Names.Within
      ⟨e.hasHelper, fun n => (named.lookup n).isSome || e.hasPartial n⟩ e'.names := by
    refine ⟨hold.helper, fun n hn => ?_⟩
    rcases Bool.or_eq_true_iff.1 hn with hfurther | hregistered
    · -- A name of the same loading: its source was compiled as well, so it is registered now.
      obtain ⟨text, htext⟩ := Option.isSome_iff_exists.1 hfurther
      have hname := Engine.name_mem_compileAll h (Fields.mem_of_lookup htext)
      simp only [Engine.names, Engine.hasPartial, hpartials]
      exact (Fields.isSome_lookup_insertAll compiled e.partials n).2 (Or.inl hname)
    · exact hold.partialName n hregistered
  exact hwithin.knows hknows

end Engines

namespace Session

theorem closed_start
    (maxDepth : Int) (keepWhitespace : Bool) :
    (start maxDepth keepWhitespace).Closed where
  linked := by
    intro ops hops
    cases hops
  partials := by
    intro entry hentry
    cases hentry
  honest := Helper.honest_builtins

/-- A session stays closed when names are only added and the new programs call registered names. -/
theorem Closed.extend
    {s : Session} {e : Engine}
    (h : s.Closed)
    (more : List (List Op))
    (hnames : s.engine.names.Within e.names)
    (hmore : ∀ ops ∈ more, e.Links ops)
    (hpartials : ∀ entry ∈ e.partials, entry.2 ∈ s.programs ++ more)
    (hhonest : ∀ entry ∈ e.helpers, entry.2.Honest) :
    Closed ⟨e, s.programs ++ more⟩ where
  linked := by
    intro ops hops
    rcases List.mem_append.1 hops with hold | hnew
    · exact (h.linked ops hold).within hnames
    · exact hmore ops hnew
  partials := hpartials
  honest := hhonest

/-- Registering compiled partials keeps a session closed. -/
theorem Closed.update
    {s : Session} {e : Engine}
    (h : s.Closed)
    (compiled : List (Bytes × List Op))
    (hnames : s.engine.names.Within e.names)
    (hcompiled : ∀ entry ∈ compiled, e.Links entry.2)
    (hpartials : ∀ entry ∈ e.partials, entry ∈ compiled ∨ entry ∈ s.engine.partials)
    (hhelpers : e.helpers = s.engine.helpers) :
    (s.update e).Closed := by
  refine h.extend _ hnames ?_ ?_ (hhelpers ▸ h.honest)
  · intro ops hops
    obtain ⟨entry, hentry, rfl⟩ := List.mem_map.1 hops
    rcases hpartials entry hentry with hnew | hold
    · exact hcompiled entry hnew
    · exact (h.linked _ (h.partials entry hold)).within hnames
  · intro entry hentry
    exact List.mem_append_right _ (List.mem_map.2 ⟨entry, hentry, rfl⟩)

theorem Closed.registerHelper
    {s : Session}
    (h : s.Closed)
    (name : Bytes) {helper : Helper}
    (hhelper : helper.Honest) :
    Closed { s with engine := s.engine.registerHelper name helper } := by
  have hextend := h.extend [] (Engine.within_registerHelper s.engine name helper) (by simp) ?_ ?_
  · simpa using hextend
  · rw [List.append_nil]
    exact h.partials
  · intro entry hentry
    rcases Fields.mem_insert hentry with rfl | hold
    · exact hhelper
    · exact h.honest entry hold

theorem Closed.registerSource
    {s : Session} {name source : Bytes} {e : Engine}
    (h : s.Closed)
    (he : s.engine.registerSource name source = .ok e) :
    (s.update e).Closed := by
  simp only [Engine.registerSource, bind_eq_ok_iff, pure_eq_ok_iff] at he
  obtain ⟨p, hp, rfl⟩ := he
  have hnames := Engine.within_registerPartial s.engine name p.ops
  refine h.update [(name, p.ops)] hnames ?_ ?_ rfl
  · intro entry hentry
    obtain rfl := List.mem_singleton.1 hentry
    exact (Engine.links_of_compile hp).within hnames
  · intro entry hentry
    rcases Fields.mem_insert hentry with hnew | hold
    · exact Or.inl (List.mem_singleton.2 hnew)
    · exact Or.inr hold

theorem Closed.loadPartials
    {s : Session} {sources : Except Bytes (List (Bytes × Bytes))} {e : Engine}
    (h : s.Closed)
    (he : s.engine.loadPartials sources = .ok e) :
    (s.update e).Closed := by
  obtain ⟨named, compiled, hcompiled, hhelpers, hpartials⟩ := Engine.loadPartials_eq_ok he
  refine h.update compiled (Engine.within_insertAll hhelpers hpartials)
    (Engine.links_of_compileAll hcompiled hhelpers hpartials) ?_ hhelpers
  intro entry hentry
  rw [hpartials] at hentry
  exact Fields.mem_insertAll hentry

theorem Closed.registerPartial
    {s : Session} {ops : List Op}
    (h : s.Closed)
    (name : Bytes)
    (hops : ops ∈ s.programs) :
    Closed { s with engine := s.engine.registerPartial name ops } := by
  have hextend := h.extend [] (Engine.within_registerPartial s.engine name ops) (by simp) ?_
    h.honest
  · simpa using hextend
  · intro entry hentry
    rw [List.append_nil]
    rcases Fields.mem_insert hentry with rfl | hold
    · exact hops
    · exact h.partials entry hold

/-- A compiled template keeps a session closed, whatever the engine notes in its log. -/
theorem Closed.compile
    {s : Session} {name source : Bytes} {p : Program}
    (h : s.Closed)
    (hp : s.engine.compile name source = .ok p)
    (log : List Notice) :
    Closed ⟨{ s.engine with log }, s.programs ++ [p.ops]⟩ := by
  refine h.extend [p.ops] ⟨fun _ hn => hn, fun _ hn => hn⟩ ?_ ?_ h.honest
  · intro ops hops
    obtain rfl := List.mem_singleton.1 hops
    exact Engine.links_of_compile hp
  · intro entry hentry
    exact List.mem_append_left _ (h.partials entry hentry)

/-- One call keeps a session closed, also when it fails. -/
theorem Closed.step
    {s : Session} {operation : Operation}
    (h : s.Closed)
    (hhonest : operation.Honest) :
    (s.step operation).Closed := by
  cases operation with
  | registerHelper name helper =>
      exact h.registerHelper name hhonest
  | registerSource name source =>
      simp only [Session.step]
      split
      · next e he =>
          exact h.registerSource he
      · exact h
  | loadPartials sources =>
      simp only [Session.step]
      split
      · next e he =>
          exact h.loadPartials he
      · exact h
  | registerPartial name number =>
      simp only [Session.step]
      split
      · next ops hops =>
          exact h.registerPartial name (List.mem_of_getElem? hops)
      · exact h
  | compile name source =>
      simp only [Session.step]
      split
      · next p hp =>
          exact h.compile hp s.engine.log
      · exact h
  | compileNoting name source =>
      simp only [Session.step]
      split
      · next p e hp =>
          simp only [Engine.compileNoting, bind_eq_ok_iff, mapError_eq_ok_iff, pure_eq_ok_iff,
            Prod.mk.injEq] at hp
          obtain ⟨q, hq, code, _, rfl, rfl⟩ := hp
          exact h.compile hq _
      · exact h

/-- Any sequence of calls keeps a session closed. -/
theorem Closed.run
    {s : Session} {operations : List Operation}
    (h : s.Closed)
    (hhonest : ∀ operation ∈ operations, operation.Honest) :
    (s.run operations).Closed := by
  induction operations generalizing s with
  | nil =>
      exact h
  | cons first rest ih =>
      have hfirst := h.step (hhonest first List.mem_cons_self)
      exact ih hfirst fun operation hmem => hhonest operation (List.mem_cons_of_mem first hmem)

theorem mem_programs_step
    {s : Session} {ops : List Op}
    (h : ops ∈ s.programs)
    (operation : Operation) :
    ops ∈ (s.step operation).programs := by
  cases operation with
  | registerHelper name helper =>
      exact h
  | registerSource | loadPartials =>
      simp only [step]
      split
      · exact List.mem_append_left _ h
      · exact h
  | registerPartial name number =>
      simp only [step]
      split <;> exact h
  | compile | compileNoting =>
      simp only [step]
      split
      · exact List.mem_append_left _ h
      · exact h

/-- Programs stay in a session. -/
theorem mem_programs_run
    {s : Session} {ops : List Op}
    (h : ops ∈ s.programs)
    (operations : List Operation) :
    ops ∈ (s.run operations).programs := by
  induction operations generalizing s with
  | nil =>
      exact h
  | cons first rest ih =>
      exact ih (mem_programs_step h first)

/-- The registries of a closed session. -/
theorem Closed.registry
    {s : Session}
    (h : s.Closed) :
    s.engine.registry.Closed s.engine.names where
  helper := fun _ hn => hn
  partialName := fun _ hn => hn
  honest := by
    intro name helper hhelper
    obtain ⟨before, after, hsplit, _⟩ := List.lookup_eq_some_iff.1 hhelper
    exact h.honest (name, helper) (by simp [hsplit])
  linked := by
    intro name ops hops
    obtain ⟨before, after, hsplit, _⟩ := List.lookup_eq_some_iff.1 hops
    exact h.linked ops (h.partials (name, ops) (by simp [hsplit]))

end Session

/-- A template that an engine has compiled at some point of a session, rendered then or at any later
point with any data and however deep calls may nest, never fails with a helper or a partial that is
not registered, as long as no custom helper returns such a failure itself. -/
theorem compiled_never_meets_unknown_name
    (maxDepth : Int) (keepWhitespace : Bool) (before after : List Operation)
    (hhonest : ∀ operation ∈ before ++ after, operation.Honest)
    (ops : List Op)
    (hcompiled : ops ∈ ((Session.start maxDepth keepWhitespace).run before).programs)
    (data : Datum) (fuel : Nat) (e : RenderError)
    (hfails :
      let engine := ((Session.start maxDepth keepWhitespace).run (before ++ after)).engine
      Stencil.render engine.registry engine.maxDepth.toNat fuel ops data.toValue = .error e) :
    e.isUnknownName = false := by
  have hclosed := (Session.closed_start maxDepth keepWhitespace).run hhonest
  have hops : ops ∈ ((Session.start maxDepth keepWhitespace).run (before ++ after)).programs := by
    rw [Session.run_append]
    exact Session.mem_programs_run hcompiled after
  exact hclosed.registry.render (hclosed.linked ops hops) hfails

/-- A partial that calls itself is loaded, and a template calls it. -/
def circularLoading : List Operation :=
  [.loadPartials (.ok [(utf8 "a", utf8 "<p>\x7b\x7b> a\x7d\x7d</p>")]),
   .compile (utf8 "page") (utf8 "\x7b\x7b> a\x7d\x7d")]

/-- The partial is replaced by one that calls it through another partial and a helper, and then the
helper is replaced. -/
def circularReplacement : List Operation :=
  [.registerSource (utf8 "b")
    (utf8 "\x7b\x7b#if x\x7d\x7d\x7b\x7b> a\x7d\x7d\x7b\x7b/if\x7d\x7d"),
   .registerSource (utf8 "a") (utf8 "\x7b\x7b> b\x7d\x7d"),
   .registerHelper (utf8 "if") Helper.unlessHelper]

/-- Whether a program is nothing but a call of a partial. -/
def isCallOf (name : Bytes) : List Op → Bool
  | [.inclusion callee none []] => callee == name
  | _ => false

theorem eq_of_isCallOf
    {name : Bytes} {ops : List Op}
    (h : isCallOf name ops = true) :
    ops = [.inclusion name none []] := by
  unfold isCallOf at h
  split at h
  · rw [beq_iff_eq.1 h]
  · cases h

/-- The template of the sample is rendered after the replacement: the partials call each other until
the limit is reached, and no name is unknown. -/
theorem circularLoading_meets_no_unknown_name :
    [.inclusion (utf8 "a") none []] ∈ ((Session.start 3 false).run circularLoading).programs ∧
      ((Session.start 3 false).run (circularLoading ++ circularReplacement)).engine.render
        [.inclusion (utf8 "a") none []] .null = .error (.recursion (utf8 "b") 3) ∧
      (RenderError.recursion (utf8 "b") 3).isUnknownName = false := by
  have hcall : ((Session.start 3 false).run circularLoading).programs.any
      (isCallOf (utf8 "a")) = true := by
    decide +kernel
  obtain ⟨ops, hops, hname⟩ := List.any_eq_true.1 hcall
  obtain rfl := eq_of_isCallOf hname
  have hfails : ((Session.start 3 false).run (circularLoading ++ circularReplacement)).engine.render
      [.inclusion (utf8 "a") none []] .null = .error (.recursion (utf8 "b") 3) :=
    eq_error_of_failure?_eq_some (by decide +kernel)
  refine ⟨hops, hfails, compiled_never_meets_unknown_name 3 false circularLoading
    circularReplacement ?_ _ hops .null Engine.fuel _ hfails⟩
  intro operation hoperation
  simp only [circularLoading, circularReplacement, List.cons_append, List.nil_append,
    List.mem_cons, List.not_mem_nil, or_false] at hoperation
  rcases hoperation with rfl | rfl | rfl | rfl | rfl
  · trivial
  · trivial
  · trivial
  · trivial
  · exact Helper.honest_builtins (utf8 "unless", Helper.unlessHelper) (by simp [Helper.builtins])

end Stencil
