import Stencil.Proofs.Command.Generation

/-!
# Runs over patterns

A run over patterns touches the outputs of the selected templates and nothing else, and of these it
never touches one that a person may have written.  Each template fares as it would fare alone: what
the run makes of it is told from the tree before the run.

Failures are told together.  A fault of a template stands for all failures before the last template,
so a later fault among them and any other failure there can go untold.  That the run failed is told
in every case.

Algorithm: the invariant of a run is read by names instead of places, and the report is the one on
the failures that the templates have in the tree before the run.

Results: `Command.settles_of_progress` for the tree, `Command.infix_told` for the report, and
`Command.pattern_run_touches_only_outputs` for the whole run.
-/

namespace Stencil
namespace Command

/-! ## The tree after a run -/

/-- A place that a generated file may take: nothing is there, or a generated file. -/
def MayTake (t : FileTree) (name : Bytes) : Prop :=
  t.find [] name = .error .missing ∨
    ∃ old, t.contentOf [] name = .ok old ∧ Generated.isGenerated old = true

/-- How a template fares, told from the tree before the run. -/
structure Fares (s : Settings) (before after : FileTree) (template : Bytes)
    (result : Except BuildError Bytes) : Prop where
  /-- A file that is emitted takes its place if it may, or stands there already. -/
  written : ∀ content, result = .ok content →
    MayTake before (template ++ utf8 ".go") ∨
      before.contentOf [] (template ++ utf8 ".go") = .ok content →
    after.contentOf [] (template ++ utf8 ".go") = .ok content ∧ failureOf s before template = none
  /-- Otherwise the template fails, and what is there is kept. -/
  refused : (∀ content, result = .ok content →
      ¬ MayTake before (template ++ utf8 ".go") ∧
        before.contentOf [] (template ++ utf8 ".go") ≠ .ok content) →
    (after.contentOf [] (template ++ utf8 ".go")).toOption =
        (before.contentOf [] (template ++ utf8 ".go")).toOption ∧
      (failureOf s before template).isSome = true

/-- What a run over templates makes of a tree. -/
structure Settles (s : Settings) (before : FileTree) (templates : List Bytes) (after : FileTree) :
    Prop where
  /-- A file differs only as the output of a template, and only where it may be written. -/
  files : ∀ name, FileName.isAbsolute name = true → FileName.clean name = name →
    (after.contentOf [] name).toOption ≠ (before.contentOf [] name).toOption →
    ∃ template ∈ templates, name = template ++ utf8 ".go" ∧ MayTake before name
  /-- The directories are the same, and so are the templates in them. -/
  directories : ∀ name, FileName.isAbsolute name = true → FileName.clean name = name →
    (templatesIn after name).toOption = (templatesIn before name).toOption
  /-- Every template is read and is emitted with the templates beside it as partials. -/
  templates : ∀ template ∈ templates, ∃ source partials,
    before.contentOf [] template = .ok source ∧
      siblings before (FileName.dir template) = .ok partials ∧
      Fares s before after template
        (emitFile (FileName.relative s.root template) source ⟨s.package, s.helpers, partials⟩)

section Names

variable {s : Settings} {before t : FileTree} {template : Bytes}

theorem contentOf_output_eq_ok_iff
    (hroot : t.isDirectory = true)
    (htemplate : Stands before template)
    {content : Bytes} :
    t.contentOf [] (template ++ utf8 ".go") = .ok content ↔
      t.look isTemplate (outputPlace template) = .file content := by
  obtain ⟨es, n, rfl, h⟩ := htemplate
  rw [FileName.ofElements_append, h.outputPlace_eq]
  exact FileTree.contentOf_eq_ok_iff hroot h.properOutput

theorem toOption_contentOf_output
    (hroot : t.isDirectory = true)
    (htemplate : Stands before template) :
    (t.contentOf [] (template ++ utf8 ".go")).toOption =
      match t.look isTemplate (outputPlace template) with
      | .file content => some content
      | _ => none := by
  obtain ⟨es, n, rfl, h⟩ := htemplate
  rw [FileName.ofElements_append, h.outputPlace_eq]
  exact FileTree.toOption_contentOf hroot h.properOutput

theorem mayTake_iff
    (hroot : t.isDirectory = true)
    (htemplate : Stands t template) :
    MayTake t (template ++ utf8 ".go") ↔
      t.look isTemplate (outputPlace template) = .nothing ∨
        ∃ old, t.look isTemplate (outputPlace template) = .file old ∧
          Generated.isGenerated old = true := by
  unfold MayTake
  simp only [contentOf_output_eq_ok_iff hroot htemplate]
  obtain ⟨es, n, rfl, h⟩ := htemplate
  obtain ⟨_, names, _, hdir⟩ := h.exists_look
  rw [FileName.ofElements_append, h.outputPlace_eq,
    FileTree.find_ofElements hroot h.properOutput, FileTree.look_eq_nothing_iff hdir]

/-- A clean absolute name is that of a place. -/
theorem exists_place
    {name : Bytes}
    (habsolute : FileName.isAbsolute name = true)
    (hclean : FileName.clean name = name) :
    ∃ es, (∀ e ∈ es, FileName.Proper e) ∧ name = FileName.ofElements true es := by
  refine ⟨FileName.elements name, FileName.proper_elements habsolute, ?_⟩
  rw [← FileName.clean_of_isAbsolute habsolute, hclean]

/-- A template that stands in a tree is read, and so are those beside it. -/
theorem exists_emitted_eq
    (hroot : t.isDirectory = true)
    (htemplate : Stands t template)
    (s : Settings) :
    ∃ source partials, t.contentOf [] template = .ok source ∧
      siblings t (FileName.dir template) = .ok partials ∧
      emitted s t template = (emitFile (FileName.relative s.root template) source
        ⟨s.package, s.helpers, partials⟩).mapError .build := by
  obtain ⟨es, n, rfl, h⟩ := htemplate
  obtain ⟨source, names, hsource, hnames⟩ := h.exists_look
  obtain ⟨hes, hn⟩ := List.forall_mem_append.1 h.proper
  have hcontent := (FileTree.contentOf_eq_ok_iff hroot h.proper).2 hsource
  have hsiblings := siblings_ofElements hroot hes hnames
  rw [← FileName.dir_ofElements hes (hn n (List.mem_singleton.2 rfl))] at hsiblings
  refine ⟨source, _, hcontent, hsiblings, ?_⟩
  rw [emitted, hcontent, hsiblings]
  rfl

/-- An emitted file is to stand where it may. -/
theorem verdict_eq_ok
    (hroot : t.isDirectory = true)
    (htemplate : Stands t template)
    {content : Bytes}
    (hemitted : emitted s t template = .ok content)
    (h : MayTake t (template ++ utf8 ".go") ∨
      t.contentOf [] (template ++ utf8 ".go") = .ok content) :
    verdict s t template = .ok (.file content) := by
  rw [mayTake_iff hroot htemplate, contentOf_output_eq_ok_iff hroot htemplate] at h
  rw [verdict, hemitted, ok_bind]
  rcases h with (hlook | ⟨old, hlook, hgenerated⟩) | hlook
  · rw [hlook]
  · simp only [hlook, hgenerated, or_true, if_true]
  · simp only [hlook, true_or, if_true]

/-- There is an error where no file is emitted or where it may not stand. -/
theorem verdict_eq_error
    (hroot : t.isDirectory = true)
    (htemplate : Stands t template)
    (h : ∀ content, emitted s t template = .ok content →
      ¬ MayTake t (template ++ utf8 ".go") ∧
        t.contentOf [] (template ++ utf8 ".go") ≠ .ok content) :
    ∃ e, verdict s t template = .error e := by
  rw [mayTake_iff hroot htemplate] at h
  simp only [ne_eq, contentOf_output_eq_ok_iff hroot htemplate] at h
  unfold verdict
  cases hemitted : emitted s t template with
  | error e =>
      exact ⟨e, rfl⟩
  | ok content =>
      obtain ⟨hfree, hsame⟩ := h content hemitted
      rw [ok_bind]
      cases hlook : t.look isTemplate (outputPlace template) with
      | nothing =>
          exact absurd (.inl hlook) hfree
      | directory names =>
          exact ⟨_, rfl⟩
      | file old =>
          have hrefuse : ¬ (old = content ∨ Generated.isGenerated old = true) := by
            rintro (rfl | hgenerated)
            · exact hsame hlook
            · exact hfree (.inr ⟨old, hlook, hgenerated⟩)
          simp only [if_neg hrefuse]
          exact ⟨_, rfl⟩

/-- What is settled by a run is a directory only if it was one before. -/
theorem look_of_settled_directory
    {names : List Bytes}
    (h : settled s t template = .directory names) :
    t.look isTemplate (outputPlace template) = .directory names := by
  unfold settled at h
  cases hverdict : verdict s t template with
  | error e =>
      rw [hverdict] at h
      exact h
  | ok sight =>
      rw [hverdict] at h
      obtain ⟨content, _, hcontent⟩ := bind_eq_ok_iff.1 hverdict
      subst h
      split at hcontent
      · cases hcontent
      · cases hcontent
      · split at hcontent <;> cases hcontent

end Names

section Tree

variable {s : Settings} {before after : FileTree} {templates : List Bytes}

/-- A template fares in a run as its verdict before the run says. -/
theorem fares_of_progress
    (hroot : before.isDirectory = true)
    (hafter : Progress s before templates after)
    {template : Bytes}
    (hmem : template ∈ templates)
    (htemplate : Stands before template)
    {result : Except BuildError Bytes}
    (hresult : emitted s before template = result.mapError .build) :
    Fares s before after template result := by
  have hsettled := hafter.outputs template hmem
  have hok : ∀ content, emitted s before template = .ok content ↔ result = .ok content := by
    intro content
    rw [hresult, mapError_eq_ok_iff]
  constructor
  · intro content hcontent hplace
    have hverdict := verdict_eq_ok hroot htemplate ((hok content).2 hcontent) hplace
    rw [settled, hverdict] at hsettled
    refine ⟨(contentOf_output_eq_ok_iff hafter.root htemplate).2 hsettled, ?_⟩
    rw [failureOf_eq s hroot htemplate, hverdict]
  · intro hrefused
    obtain ⟨e, hverdict⟩ := verdict_eq_error hroot htemplate
      fun content hcontent => hrefused content ((hok content).1 hcontent)
    rw [settled, hverdict] at hsettled
    refine ⟨?_, ?_⟩
    · rw [toOption_contentOf_output hafter.root htemplate,
        toOption_contentOf_output hroot htemplate, hsettled]
    · rw [failureOf_eq s hroot htemplate, hverdict]
      rfl

/-- A file that differs after a run is an output that could be written. -/
theorem Progress.output_of_differs
    (h : Progress s before templates after)
    (hroot : before.isDirectory = true)
    (htemplates : ∀ template ∈ templates, Stands before template)
    {es : List Bytes}
    (hes : ∀ e ∈ es, FileName.Proper e)
    (hne : (after.contentOf [] (FileName.ofElements true es)).toOption ≠
      (before.contentOf [] (FileName.ofElements true es)).toOption) :
    ∃ template ∈ templates, FileName.ofElements true es = template ++ utf8 ".go" ∧
      MayTake before (FileName.ofElements true es) := by
  rw [FileTree.toOption_contentOf h.root hes, FileTree.toOption_contentOf hroot hes] at hne
  rcases h.look_cases es with heq | ⟨template, hmem, rfl, heq⟩
  · exact absurd (by rw [heq]) hne
  · have htemplate := htemplates template hmem
    have hdiffers : settled s before template ≠
        before.look isTemplate (outputPlace template) := by
      intro hsame
      rw [hsame] at heq
      exact hne (by rw [heq])
    have hname : FileName.ofElements true (outputPlace template) = template ++ utf8 ".go" := by
      obtain ⟨es, n, rfl, hat⟩ := htemplate
      rw [hat.outputPlace_eq, FileName.ofElements_append]
    rw [hname]
    exact ⟨template, hmem, rfl, (mayTake_iff hroot htemplate).2 (look_of_settled_ne hdiffers)⟩

/-- A run neither makes nor removes a directory or a template. -/
theorem Progress.toOption_templatesIn
    (h : Progress s before templates after)
    (hroot : before.isDirectory = true)
    {es : List Bytes}
    (hes : ∀ e ∈ es, FileName.Proper e) :
    (templatesIn after (FileName.ofElements true es)).toOption =
      (templatesIn before (FileName.ofElements true es)).toOption := by
  rw [Command.toOption_templatesIn h.root hes, Command.toOption_templatesIn hroot hes]
  cases hbefore : before.look isTemplate es with
  | directory names =>
      rw [h.look_directory hbefore, hbefore]
  | nothing | file content =>
      cases hafter : after.look isTemplate es with
      | nothing | file content =>
          rfl
      | directory names =>
          rcases h.look_cases es with heq | ⟨template, _, rfl, heq⟩
          · rw [heq, hbefore] at hafter
            cases hafter
          · rw [heq] at hafter
            rw [look_of_settled_directory hafter] at hbefore
            cases hbefore

/-- The invariant of a run, by names. -/
theorem settles_of_progress
    (hroot : before.isDirectory = true)
    (htemplates : ∀ template ∈ templates, Stands before template)
    (h : Progress s before templates after) :
    Settles s before templates after := by
  constructor
  · intro name habsolute hclean hne
    obtain ⟨es, hes, rfl⟩ := exists_place habsolute hclean
    exact h.output_of_differs hroot htemplates hes hne
  · intro name habsolute hclean
    obtain ⟨es, hes, rfl⟩ := exists_place habsolute hclean
    exact h.toOption_templatesIn hroot hes
  · intro template hmem
    have htemplate := htemplates template hmem
    obtain ⟨source, partials, hsource, hpartials, hemitted⟩ :=
      exists_emitted_eq hroot htemplate s
    exact ⟨source, partials, hsource, hpartials,
      fares_of_progress hroot h hmem htemplate hemitted⟩

/-- Two runs from one tree leave the same at the output of a template that both take. -/
theorem Progress.contentOf_output_eq
    {others : List Bytes} {after' : FileTree} {template : Bytes}
    (h : Progress s before templates after)
    (h' : Progress s before others after')
    (htemplate : Stands before template)
    (hmem : template ∈ templates)
    (hmem' : template ∈ others) :
    (after.contentOf [] (template ++ utf8 ".go")).toOption =
      (after'.contentOf [] (template ++ utf8 ".go")).toOption := by
  rw [toOption_contentOf_output h.root htemplate, toOption_contentOf_output h'.root htemplate,
    h.outputs template hmem, h'.outputs template hmem']

end Tree

/-! ## The report on a run -/

/-- How a failure is shown: a fault of the template as such, and anything else by its message. -/
def TemplateError.shown (style : Style) (e : TemplateError) : Bytes :=
  match e.diagnostic? with
  | some d => announce style (.inl d.report)
  | none => e.message

/-- The fault of a template in a tree, if it fails for one. -/
def faultOf (s : Settings) (t : FileTree) (template : Bytes) : Option Diagnostic :=
  (failureOf s t template).bind TemplateError.diagnostic?

theorem infix_join
    {s : Bytes} {l : List Bytes}
    (h : s ∈ l)
    (sep : Bytes) :
    s <:+: Bytes.join sep l := by
  induction l with
  | nil =>
      cases h
  | cons first rest ih =>
      cases rest with
      | nil =>
          obtain rfl := List.mem_singleton.1 h
          exact List.infix_rfl
      | cons second rest =>
          rw [Bytes.join]
          rcases List.mem_cons.1 h with rfl | h
          · rw [List.append_assoc]
            exact (List.prefix_append _ _).isInfix
          · exact (ih h).trans (List.suffix_append _ _).isInfix

theorem infix_flatMap
    {α : Type} {a : α} {l : List α}
    (h : a ∈ l)
    (f : α → Bytes) :
    f a <:+: l.flatMap f := by
  obtain ⟨front, back, rfl⟩ := List.append_of_mem h
  rw [List.flatMap_append, List.flatMap_cons, ← List.append_assoc]
  exact List.infix_append _ _ _

section Report

variable {style : Style} {front back : List TemplateError} {e : TemplateError}

/-- Of failures taken together the first fault is shown, and all of them if there is no fault. -/
theorem shown_infix_together
    (hfront : ∀ other ∈ front, other.diagnostic? = none)
    (h : e.diagnostic?.isSome = true ∨ ∀ other ∈ back, other.diagnostic? = none) :
    e.shown style <:+: announce style (together (front ++ e :: back)) := by
  have hskip : front.findSome? TemplateError.diagnostic? = none :=
    List.findSome?_eq_none_iff.2 hfront
  unfold TemplateError.shown together
  rw [List.findSome?_append, hskip, Option.none_or, List.findSome?_cons]
  cases he : e.diagnostic? with
  | some d =>
      exact List.infix_rfl
  | none =>
      have hback : ∀ other ∈ back, other.diagnostic? = none := by
        rcases h with h | h
        · rw [he] at h
          cases h
        · exact h
      rw [List.findSome?_eq_none_iff.2 hback]
      have hmem : e.message ∈ (front ++ e :: back).map TemplateError.message :=
        List.mem_map_of_mem (by simp)
      refine (infix_join hmem (utf8 "\n")).trans ?_
      rw [announce, List.append_assoc]
      exact List.infix_append _ _ _

end Report

section Told

variable {failures : List (Option TemplateError)}

/-- Something is told exactly when there is a failure. -/
theorem told_eq_nil_iff :
    told failures = [] ↔ ∀ failure ∈ failures, failure = none := by
  rcases List.eq_nil_or_concat failures with rfl | ⟨earlier, last, rfl⟩
  · simp [told]
  · rw [List.concat_eq_append]
    cases last with
    | some e =>
        simp [told]
    | none =>
        have hearlier : told (earlier ++ [none]) = [] ↔ earlier.filterMap id = [] := by
          simp [told]
        rw [hearlier, List.filterMap_eq_nil_iff, List.forall_mem_append]
        simp only [id_eq, List.mem_singleton, forall_eq, and_true]

/-- The failure of the last template is told as it is. -/
theorem together_last_mem_told
    (front : List (Option TemplateError)) (e : TemplateError) :
    together [e] ∈ told (front ++ [some e]) := by
  simp [told]

/-- The failures before the last template are told together. -/
theorem together_earlier_mem_told
    {back : List (Option TemplateError)}
    (hback : back ≠ [])
    (front : List (Option TemplateError)) (e : TemplateError) :
    together (front.filterMap id ++ e :: back.dropLast.filterMap id) ∈
      told (front ++ some e :: back) := by
  have hdrop : (front ++ some e :: back).dropLast = front ++ some e :: back.dropLast := by
    rw [List.dropLast_append_of_ne_nil (by simp), List.dropLast_cons_of_ne_nil hback]
  simp [told, hdrop]

end Told

/-- A failure is told unless a fault of another template before the last one stands for it. -/
theorem infix_told
    (style : Style) (s : Settings) (t : FileTree)
    {front back : List Bytes} {template : Bytes} {e : TemplateError}
    (hfailure : failureOf s t template = some e)
    (h : back = [] ∨ (∀ other ∈ front, faultOf s t other = none) ∧
      (e.diagnostic?.isSome = true ∨ ∀ other ∈ back.dropLast, faultOf s t other = none)) :
    e.shown style <:+:
      (told ((front ++ template :: back).map (failureOf s t))).flatMap (announce style) := by
  have hfaults : ∀ {others : List Bytes}, (∀ other ∈ others, faultOf s t other = none) →
      ∀ failure ∈ (others.map (failureOf s t)).filterMap id, failure.diagnostic? = none := by
    intro others hothers failure hmem
    obtain ⟨option, hoption, hsome⟩ := List.mem_filterMap.1 hmem
    obtain ⟨other, hother, rfl⟩ := List.mem_map.1 hoption
    have hnone := hothers other hother
    rw [faultOf, show failureOf s t other = some failure from hsome] at hnone
    exact hnone
  rw [List.map_append, List.map_cons, hfailure]
  by_cases hback : back = []
  · subst hback
    have hshown : e.shown style <:+: announce style (together ([] ++ [e])) :=
      shown_infix_together (by simp) (.inr (by simp))
    exact hshown.trans (infix_flatMap (together_last_mem_told _ e) _)
  · obtain ⟨hfront, hrest⟩ := h.resolve_left hback
    have hshown : e.shown style <:+: announce style (together
        ((front.map (failureOf s t)).filterMap id ++
          e :: (back.dropLast.map (failureOf s t)).filterMap id)) :=
      shown_infix_together (hfaults hfront) (hrest.imp_right hfaults)
    rw [List.map_dropLast] at hshown
    refine hshown.trans (infix_flatMap (together_earlier_mem_told ?_ _ e) _)
    exact fun hnil => hback (List.map_eq_nil_iff.1 hnil)

/-! ## The run -/

/-- What the emitted files of a run share, as its flags have it. -/
def settingsOf (root : Bytes) (flags : Flags) : Settings :=
  let package := Text.trim flags.package
  ⟨root, if package.isEmpty then none else some package, helperNames flags.helpers⟩

/-- The patterns of a run. -/
def patternsOf (flags : Flags) : List Bytes :=
  if flags.patterns.isEmpty then [utf8 "./..."] else flags.patterns

/-- What a run over templates reports, told from the tree before the run. -/
structure Reports (style : Style) (s : Settings) (before : FileTree) (templates : List Bytes)
    (out : Outcome) : Prop where
  exitCode : out.exitCode =
    if ∀ template ∈ templates, failureOf s before template = none then 0 else 1
  errors : out.errors =
    (told (templates.map (failureOf s before))).flatMap (announce style)
  /-- The failure of the last template is reported, and one before it unless a fault of another
  template before the last stands for it. -/
  shown : ∀ front template back e, templates = front ++ template :: back →
    failureOf s before template = some e →
    (back = [] ∨ (∀ other ∈ front, faultOf s before other = none) ∧
      (e.diagnostic?.isSome = true ∨ ∀ other ∈ back.dropLast, faultOf s before other = none)) →
    e.shown style <:+: out.errors

section Run

variable {arguments : List Bytes} {cwd root : Bytes} {t : FileTree} {flags : Flags}
  {templates : List Bytes}

/-- A run over patterns takes each of the selected templates. -/
theorem run_eq_of_select
    (style : Style)
    (hflags : Flags.read {} arguments = .ok flags)
    (hmode : Text.trim flags.dir = [])
    (hroot : findRoot cwd t flags.root = .ok root)
    (hselect : select cwd t (patternsOf flags) = .ok templates) :
    run style arguments cwd t =
      .of style (generateEach (settingsOf root flags) t templates).2
        (told (generateEach (settingsOf root flags) t templates).1) := by
  unfold patternsOf at hselect
  simp only [run, hflags, hroot, hmode, List.isEmpty_nil, if_true, runPatterns, hselect]
  rfl

/-- A run over templates that stand in a tree, in any order. -/
theorem progress_of_stands
    (s : Settings)
    (htree : t.isDirectory = true)
    {order : List Bytes}
    (horder : ∀ template ∈ order, Stands t template) :
    (generateEach s t order).1 = order.map (failureOf s t) ∧
      Progress s t order (generateEach s t order).2 := by
  have hnone : ∀ template ∈ [], Stands t template := by simp
  exact progress_generateEach htree order hnone horder (.start htree)

/-- The report of a run whose templates fail as they would have failed at first. -/
theorem reports_of
    (style : Style) (s : Settings) (before after : FileTree) (templates : List Bytes) :
    Reports style s before templates
      (.of style after (told (templates.map (failureOf s before)))) where
  exitCode := by
    have hnone : (told (templates.map (failureOf s before))).isEmpty = true ↔
        ∀ template ∈ templates, failureOf s before template = none := by
      rw [List.isEmpty_iff, told_eq_nil_iff]
      exact List.forall_mem_map
    simp only [Outcome.of, hnone]
  errors := rfl
  shown := by
    rintro front template back e rfl hfailure h
    exact infix_told style s before hfailure h

/-- A run over patterns touches nothing but the outputs of the selected templates, and each template
fares and fails as the tree before the run says, in whatever order and company it is taken. -/
theorem pattern_run_touches_only_outputs
    (style : Style)
    (hcwd : FileName.isAbsolute cwd = true)
    (htree : t.isDirectory = true)
    (hproper : t.isProper = true)
    (hflags : Flags.read {} arguments = .ok flags)
    (hmode : Text.trim flags.dir = [])
    (hroot : findRoot cwd t flags.root = .ok root)
    (hselect : select cwd t (patternsOf flags) = .ok templates) :
    let s := settingsOf root flags
    let out := run style arguments cwd t
    Settles s t templates out.tree ∧ Reports style s t templates out ∧
      ∀ order, (∀ template ∈ order, template ∈ templates) →
        (generateEach s t order).1 = order.map (failureOf s t) ∧
          Settles s t order (generateEach s t order).2 ∧
          ∀ template ∈ order,
            ((generateEach s t order).2.contentOf [] (template ++ utf8 ".go")).toOption =
              (out.tree.contentOf [] (template ++ utf8 ".go")).toOption := by
  intro s out
  have hstands := stands_of_select hcwd htree hproper hselect
  obtain ⟨hfailures, hprogress⟩ := progress_of_stands s htree hstands
  have hout : out = .of style (generateEach s t templates).2
      (told (templates.map (failureOf s t))) := by
    rw [← hfailures]
    exact run_eq_of_select style hflags hmode hroot hselect
  rw [hout]
  refine ⟨settles_of_progress htree hstands hprogress, reports_of style s t _ templates, ?_⟩
  intro order horder
  have hstands' : ∀ template ∈ order, Stands t template :=
    fun template hmem => hstands template (horder template hmem)
  obtain ⟨hfailures', hprogress'⟩ := progress_of_stands s htree hstands'
  refine ⟨hfailures', settles_of_progress htree hstands' hprogress', fun template hmem => ?_⟩
  exact hprogress'.contentOf_output_eq hprogress (hstands' template hmem) hmem
    (horder template hmem)

end Run

/-- A module with a package of four templates: the first two have faults, the third has none, and a
person has written the file that the fourth would be emitted as. -/
def drafts : FileTree :=
  .directory [
    (utf8 "go.mod", .file (utf8 "module m\n")),
    (utf8 "p", .directory [
      (utf8 "a.hbx", .file (utf8 "<p>\x7b\x7b#if x\x7d\x7d</p>")),
      (utf8 "b.hbx", .file (utf8 "<p>\x7b\x7b../x\x7d\x7d</p>")),
      (utf8 "c.hbx", .file (utf8 "<p>c</p>")),
      (utf8 "d.hbx", .file (utf8 "<p>d</p>")),
      (utf8 "d.hbx.go", .file (utf8 "package p\n"))])]

/-- The templates of the package, in the order of their names. -/
def draftNames : List Bytes :=
  [utf8 "/p/a.hbx", utf8 "/p/b.hbx", utf8 "/p/c.hbx", utf8 "/p/d.hbx"]

theorem select_drafts :
    select (utf8 "/") drafts (patternsOf {}) = .ok draftNames := by
  have hgroups : (patternsOf {}).mapM (expand (utf8 "/") drafts) = .ok [draftNames] := by
    rfl
  have hdistinct : [draftNames].flatten.eraseDups = draftNames := by
    decide
  rw [select, hgroups, ok_bind, hdistinct, List.mergeSort_of_pairwise (by decide)]
  rfl

theorem findRoot_drafts :
    findRoot (utf8 "/") drafts [] = .ok (utf8 "/") :=
  rfl

theorem pattern_run_touches_only_outputs_drafts :
    FileName.isAbsolute (utf8 "/") = true ∧ drafts.isDirectory = true ∧
      drafts.isProper = true ∧ Flags.read {} [] = .ok {} ∧ Text.trim [] = [] ∧
      findRoot (utf8 "/") drafts [] = .ok (utf8 "/") ∧
      select (utf8 "/") drafts (patternsOf {}) = .ok draftNames ∧
      (run .plain [] (utf8 "/") drafts).exitCode = 1 ∧
      (∃ content, emitFile (utf8 "p/c.hbx") (utf8 "<p>c</p>")
          ⟨none, [], [utf8 "a", utf8 "b", utf8 "c", utf8 "d"]⟩ = .ok content ∧
        (run .plain [] (utf8 "/") drafts).tree.contentOf [] (utf8 "/p/c.hbx.go") =
          .ok content) ∧
      ((run .plain [] (utf8 "/") drafts).tree.contentOf [] (utf8 "/p/d.hbx.go")).toOption =
        some (utf8 "package p\n") := by
  have hflags : Flags.read {} [] = .ok {} := rfl
  obtain ⟨htree, hreport, _⟩ := pattern_run_touches_only_outputs .plain (by decide) rfl
    (by decide) hflags rfl findRoot_drafts select_drafts
  refine ⟨by decide, rfl, by decide, hflags, rfl, findRoot_drafts, select_drafts, ?_, ?_, ?_⟩
  · have hfails : failureOf (settingsOf (utf8 "/") {}) drafts (utf8 "/p/a.hbx") ≠ none := by
      refine Option.isSome_iff_ne_none.1 ?_
      decide +kernel
    rw [hreport.exitCode, if_neg fun hnone => hfails (hnone _ List.mem_cons_self)]
  · obtain ⟨source, partials, hsource, hpartials, hfares⟩ :=
      htree.templates (utf8 "/p/c.hbx") (by decide)
    have hsource' : drafts.contentOf [] (utf8 "/p/c.hbx") = .ok (utf8 "<p>c</p>") := rfl
    have hpartials' : siblings drafts (FileName.dir (utf8 "/p/c.hbx")) =
        .ok [utf8 "a", utf8 "b", utf8 "c", utf8 "d"] := rfl
    obtain rfl := Except.ok.inj (hsource.symm.trans hsource')
    obtain rfl := Except.ok.inj (hpartials.symm.trans hpartials')
    have hok : (emitFile (utf8 "p/c.hbx") (utf8 "<p>c</p>")
        ⟨none, [], [utf8 "a", utf8 "b", utf8 "c", utf8 "d"]⟩).isOk = true := by
      decide +kernel
    obtain ⟨content, hresult⟩ := isOk_eq_true_iff.1 hok
    exact ⟨content, hresult, (hfares.written content hresult (.inl (.inl rfl))).1⟩
  · have hcontent : drafts.contentOf [] (utf8 "/p/d.hbx.go") = .ok (utf8 "package p\n") := rfl
    have hkept : ¬ MayTake drafts (utf8 "/p/d.hbx.go") := by
      rintro (hmissing | ⟨old, hold, hgenerated⟩)
      · cases hmissing
      · obtain rfl := Except.ok.inj (hcontent.symm.trans hold)
        exact absurd hgenerated (by decide)
    by_cases hsame : ((run .plain [] (utf8 "/") drafts).tree.contentOf []
        (utf8 "/p/d.hbx.go")).toOption = (drafts.contentOf [] (utf8 "/p/d.hbx.go")).toOption
    · rw [hsame, hcontent]
      rfl
    · obtain ⟨_, _, _, htake⟩ := htree.files (utf8 "/p/d.hbx.go") (by decide) (by decide) hsame
      exact absurd htake hkept

/-- The fault of the second template is not told: that of the first one stands for it. -/
theorem second_fault_untold_in_drafts :
    ∃ e, failureOf (settingsOf (utf8 "/") {}) drafts (utf8 "/p/b.hbx") = some e ∧
      ¬ e.shown .plain <:+: (run .plain [] (utf8 "/") drafts).errors := by
  have hflags : Flags.read {} [] = .ok {} := rfl
  have huntold : ((failureOf (settingsOf (utf8 "/") {}) drafts (utf8 "/p/b.hbx")).any fun e =>
      !decide (e.shown .plain <:+:
        (told (generateEach (settingsOf (utf8 "/") {}) drafts draftNames).1).flatMap
          (announce .plain))) = true := by
    decide +kernel
  rw [run_eq_of_select .plain hflags rfl findRoot_drafts select_drafts]
  cases hfailure : failureOf (settingsOf (utf8 "/") {}) drafts (utf8 "/p/b.hbx") with
  | none =>
      rw [hfailure] at huntold
      cases huntold
  | some e =>
      rw [hfailure] at huntold
      exact ⟨e, rfl, by simpa [Outcome.of] using huntold⟩

end Command
end Stencil
