import Stencil.Command.Run
import Stencil.Proofs.Command.Selection

/-!
# Templates are taken on their own

The files that the command writes stand in the directories that it reads for the next templates.
Yet what becomes of a template can be read off the tree before the run: neither its source nor the
names of the templates beside it are ever written to, and its output is written to for its own sake
only.

Algorithm: `verdict` says what becomes of one template.  `Progress` is the invariant of a run: the
outputs of the templates that are done stand as their verdicts say, and everything else looks as
before the run.  One template keeps the invariant and fails as it would have failed at first, so the
whole run does, in any order.

Results: `Command.progress_after` for one template and `Command.progress_generateEach` for a run.
-/

namespace Stencil
namespace Command

open FileTree (Sight)

/-! ## Outputs -/

/-- The place of the file that a template is emitted as. -/
def outputPlace (template : Bytes) : List Bytes := FileName.elements (template ++ utf8 ".go")

theorem isTemplate_output
    (n : Bytes) :
    isTemplate (n ++ utf8 ".go") = false := by
  rw [isTemplate, Bytes.endsWith, List.reverse_append]
  rfl

theorem proper_output
    {n : Bytes}
    (hn : FileName.Proper n) :
    FileName.Proper (n ++ utf8 ".go") := by
  have hlength : 3 ≤ (n ++ utf8 ".go").length := by
    rw [List.length_append]
    exact Nat.le_add_left 3 n.length
  refine ⟨?_, ?_, ?_, ?_⟩
  · intro h
    rw [h] at hlength
    exact absurd hlength (by decide)
  · intro hslash
    rcases List.mem_append.1 hslash with hslash | hslash
    · exact hn.noSlash hslash
    · exact absurd hslash (by decide)
  · intro h
    rw [h] at hlength
    exact absurd hlength (by decide)
  · intro h
    rw [h] at hlength
    exact absurd hlength (by decide)

section Outputs

variable {t : FileTree} {es : List Bytes} {n : Bytes}

theorem IsTemplateAt.properOutput
    (h : IsTemplateAt t es n) :
    ∀ e ∈ es ++ [n ++ utf8 ".go"], FileName.Proper e := by
  obtain ⟨hes, hn⟩ := List.forall_mem_append.1 h.proper
  intro e he
  rcases List.mem_append.1 he with he | he
  · exact hes e he
  · exact List.mem_singleton.1 he ▸ proper_output (hn n (List.mem_singleton.2 rfl))

/-- The output of a template stands beside it. -/
theorem IsTemplateAt.outputPlace_eq
    (h : IsTemplateAt t es n) :
    outputPlace (FileName.ofElements true (es ++ [n])) = es ++ [n ++ utf8 ".go"] := by
  rw [outputPlace, FileName.ofElements_append, FileName.elements_ofElements h.properOutput]

/-- No output stands at the place of a template. -/
theorem IsTemplateAt.ne_outputPlace
    (h : IsTemplateAt t es n)
    {template : Bytes}
    (htemplate : Stands t template) :
    es ++ [n] ≠ outputPlace template := by
  obtain ⟨es', n', rfl, h'⟩ := htemplate
  rw [h'.outputPlace_eq]
  intro heq
  obtain ⟨_, hn⟩ := List.append_inj' heq rfl
  have htrue := h.named
  rw [List.singleton_inj.1 hn, isTemplate_output] at htrue
  cases htrue

/-- Different templates have different outputs. -/
theorem outputPlace_inj
    {template other : Bytes}
    (htemplate : Stands t template)
    (hother : Stands t other)
    (h : outputPlace template = outputPlace other) :
    template = other := by
  obtain ⟨es, n, rfl, hat⟩ := htemplate
  obtain ⟨es', n', rfl, hat'⟩ := hother
  rw [hat.outputPlace_eq, hat'.outputPlace_eq] at h
  obtain ⟨rfl, hn⟩ := List.append_inj' h rfl
  rw [List.append_cancel_right (List.singleton_inj.1 hn)]

end Outputs

/-! ## One template -/

section Verdict

variable (s : Settings) (t : FileTree) (template : Bytes)

/-- What is to stand at the place of the output of a template, or why it is not written. -/
def verdict : Except TemplateError Sight := do
  let content ← emitted s t template
  let output := template ++ utf8 ".go"
  match t.look isTemplate (outputPlace template) with
  | .nothing => .ok (.file content)
  | .directory _ => .error (.write (.file ⟨.read, output, .isDirectory⟩))
  | .file old =>
    if old = content ∨ Generated.isGenerated old = true then .ok (.file content)
    else .error (.write (.notGenerated output))

/-- What stands at the place of the output of a template once it is taken. -/
def settled : Sight :=
  match verdict s t template with
  | .ok sight => sight
  | .error _ => t.look isTemplate (outputPlace template)

/-- The failure of a template in a tree. -/
def failureOf : Option TemplateError :=
  match generate s t template with
  | .ok _ => none
  | .error e => some e

/-- The tree once a template is taken. -/
def after : FileTree :=
  match generate s t template with
  | .ok t => t
  | .error _ => t

end Verdict

theorem generateEach_cons
    (s : Settings) (t : FileTree) (template : Bytes) (rest : List Bytes) :
    generateEach s t (template :: rest) =
      (failureOf s t template :: (generateEach s (after s t template) rest).1,
        (generateEach s (after s t template) rest).2) := by
  rw [generateEach, failureOf, after]
  cases generate s t template <;> rfl

section Reading

variable {t t' : FileTree} {es : List Bytes}

theorem toOption_templatesIn
    (hroot : t.isDirectory = true)
    (hes : ∀ e ∈ es, FileName.Proper e) :
    (templatesIn t (FileName.ofElements true es)).toOption =
      match t.look isTemplate es with
      | .directory names => some (names.map fun n => FileName.join [FileName.ofElements true es, n])
      | _ => none := by
  rw [templatesIn, FileTree.entriesOf, FileTree.get, FileTree.find_ofElements hroot hes,
    FileTree.look]
  cases t.resolve es with
  | error cause =>
      rfl
  | ok u =>
      cases u with
      | file content =>
          rfl
      | directory entries =>
          simp only [templatesAmong, FileTree.wantedFiles, List.map_map]
          rfl

/-- The partials of a directory are told from the templates in it. -/
theorem siblings_ofElements
    (hroot : t.isDirectory = true)
    (hes : ∀ e ∈ es, FileName.Proper e)
    {names : List Bytes}
    (h : t.look isTemplate es = .directory names) :
    siblings t (FileName.ofElements true es) =
      .ok (names.map fun n =>
        let base := FileName.base (FileName.join [FileName.ofElements true es, n])
        (Bytes.before? ending base).getD base) := by
  have htemplates := toOption_templatesIn hroot hes
  rw [h] at htemplates
  cases hin : templatesIn t (FileName.ofElements true es) with
  | error e =>
      rw [hin] at htemplates
      cases htemplates
  | ok templates =>
      rw [hin] at htemplates
      obtain rfl := Option.some.inj htemplates
      rw [siblings, hin, ok_bind, List.map_map]
      rfl

/-- A template with its source and the templates beside it. -/
theorem IsTemplateAt.exists_look
    {n : Bytes}
    (h : IsTemplateAt t es n) :
    ∃ source names, t.look isTemplate (es ++ [n]) = .file source ∧
      t.look isTemplate es = .directory names := by
  obtain ⟨source, hsource⟩ := h.isFile
  obtain ⟨entries, hentries⟩ := FileTree.directory_of_resolve_concat hsource
  exact ⟨source, _, FileTree.look_eq_file_iff.2 hsource,
    FileTree.look_eq_directory_iff.2 ⟨entries, hentries, rfl⟩⟩

/-- What a template is emitted as depends on its source and on the templates beside it. -/
theorem emitted_congr
    {n : Bytes}
    (hroot : t.isDirectory = true)
    (hroot' : t'.isDirectory = true)
    (h : IsTemplateAt t es n)
    (hsource : t'.look isTemplate (es ++ [n]) = t.look isTemplate (es ++ [n]))
    (hdir : t'.look isTemplate es = t.look isTemplate es)
    (s : Settings) :
    emitted s t' (FileName.ofElements true (es ++ [n])) =
      emitted s t (FileName.ofElements true (es ++ [n])) := by
  obtain ⟨source, names, hfile, hnames⟩ := h.exists_look
  obtain ⟨hes, hn⟩ := List.forall_mem_append.1 h.proper
  have hcontent := (FileTree.contentOf_eq_ok_iff hroot h.proper).2 hfile
  have hcontent' := (FileTree.contentOf_eq_ok_iff hroot' h.proper).2 (hsource.trans hfile)
  have hsiblings := siblings_ofElements hroot hes hnames
  have hsiblings' := siblings_ofElements hroot' hes (hdir.trans hnames)
  simp only [emitted, hcontent, hcontent', hsiblings, hsiblings',
    FileName.dir_ofElements hes (hn n (List.mem_singleton.2 rfl))]

end Reading

/-- A template fails as its verdict says, and otherwise its output changes and nothing else. -/
theorem generate_cases
    (s : Settings) {t : FileTree} {template : Bytes}
    (hroot : t.isDirectory = true)
    (htemplate : Stands t template) :
    (∃ e, generate s t template = .error e ∧ verdict s t template = .error e) ∨
      ∃ t' sight, generate s t template = .ok t' ∧ verdict s t template = .ok sight ∧
        t'.isDirectory = true ∧ ∀ place, t'.look isTemplate place =
          if place = outputPlace template then sight else t.look isTemplate place := by
  obtain ⟨es, n, rfl, h⟩ := htemplate
  obtain ⟨_, names, _, hdir⟩ := h.exists_look
  have hset : ∀ content, (∀ inside, t.look isTemplate (es ++ [n ++ utf8 ".go"]) ≠
      .directory inside) → ∀ place,
      (t.set (es ++ [n ++ utf8 ".go"]) (.file content)).look isTemplate place =
        if place = es ++ [n ++ utf8 ".go"] then .file content else t.look isTemplate place :=
    fun content hfree => FileTree.look_set hdir hfree (isTemplate_output n) content
  rw [generate, verdict, h.outputPlace_eq]
  cases emitted s t (FileName.ofElements true (es ++ [n])) with
  | error e =>
      exact .inl ⟨e, rfl, rfl⟩
  | ok content =>
      simp only [ok_bind, FileName.ofElements_append,
        FileTree.writeGenerated_ofElements hroot h.properOutput hdir content]
      cases hlook : t.look isTemplate (es ++ [n ++ utf8 ".go"]) with
      | nothing =>
          exact .inr ⟨_, _, rfl, rfl, FileTree.isDirectory_set t (by simp) _,
            hset content (by simp [hlook])⟩
      | directory inside =>
          exact .inl ⟨_, rfl, rfl⟩
      | file old =>
          by_cases hold : old = content
          · -- An equal file is left alone, which looks the same as writing it.
            subst hold
            refine .inr ⟨t, .file old, ?_, ?_, hroot, ?_⟩
            · simp [ok_mapError, pure, Except.pure, ok_bind]
            · simp
            · intro place
              split
              · next hplace =>
                  rw [hplace, hlook]
              · rfl
          · by_cases hgenerated : Generated.isGenerated old = true
            · refine .inr ⟨t.set (es ++ [n ++ utf8 ".go"]) (.file content), .file content, ?_, ?_,
                FileTree.isDirectory_set t (by simp) _, hset content (by simp [hlook])⟩
              · simp [hold, hgenerated, ok_mapError, pure, Except.pure, ok_bind]
              · simp [hgenerated]
            · refine .inl ⟨.write (.notGenerated (FileName.ofElements true
                (es ++ [n ++ utf8 ".go"]))), ?_, ?_⟩
              · simp [hold, hgenerated, error_mapError, bind, Except.bind]
              · simp [hold, hgenerated]

/-- A template fails when its verdict does. -/
theorem failureOf_eq
    (s : Settings) {t : FileTree} {template : Bytes}
    (hroot : t.isDirectory = true)
    (htemplate : Stands t template) :
    failureOf s t template =
      match verdict s t template with
      | .ok _ => none
      | .error e => some e := by
  unfold failureOf
  obtain ⟨e, hgenerate, hverdict⟩ | ⟨t', sight, hgenerate, hverdict, _⟩ :=
    generate_cases s hroot htemplate
  · rw [hgenerate, hverdict]
  · rw [hgenerate, hverdict]

/-- Once a template is taken its output is settled, and nothing else looks different. -/
theorem look_after
    (s : Settings) {t : FileTree} {template : Bytes}
    (hroot : t.isDirectory = true)
    (htemplate : Stands t template) :
    (after s t template).isDirectory = true ∧ ∀ place,
      (after s t template).look isTemplate place =
        if place = outputPlace template then settled s t template
        else t.look isTemplate place := by
  unfold after settled
  obtain ⟨e, hgenerate, hverdict⟩ | ⟨t', sight, hgenerate, hverdict, hroot', hlook⟩ :=
    generate_cases s hroot htemplate
  · rw [hgenerate, hverdict]
    refine ⟨hroot, fun place => ?_⟩
    by_cases hplace : place = outputPlace template
    · rw [if_pos hplace, hplace]
    · rw [if_neg hplace]
  · rw [hgenerate, hverdict]
    exact ⟨hroot', hlook⟩

/-! ## Verdicts -/

section Settled

variable {s : Settings} {t : FileTree} {template : Bytes}

/-- A directory at the place of an output stays there. -/
theorem settled_of_directory
    {names : List Bytes}
    (h : t.look isTemplate (outputPlace template) = .directory names) :
    settled s t template = .directory names := by
  unfold settled verdict
  cases emitted s t template with
  | error e =>
      exact h
  | ok content =>
      simp only [ok_bind, h]

/-- An output changes only where nothing stands or a generated file. -/
theorem look_of_settled_ne
    (h : settled s t template ≠ t.look isTemplate (outputPlace template)) :
    t.look isTemplate (outputPlace template) = .nothing ∨
      ∃ old, t.look isTemplate (outputPlace template) = .file old ∧
        Generated.isGenerated old = true := by
  revert h
  unfold settled verdict
  cases emitted s t template with
  | error e =>
      exact fun h => absurd rfl h
  | ok content =>
      cases hlook : t.look isTemplate (outputPlace template) with
      | nothing =>
          exact fun _ => .inl rfl
      | directory names =>
          exact fun h => absurd rfl h
      | file old =>
          intro h
          by_cases hgenerated : Generated.isGenerated old = true
          · exact .inr ⟨old, rfl, hgenerated⟩
          · by_cases hold : old = content
            · subst hold
              simp [ok_bind] at h
            · simp [ok_bind, hold, hgenerated] at h

/-- A template that is taken a second time gets the same verdict. -/
theorem verdict_congr
    {t' : FileTree}
    (hemitted : emitted s t' template = emitted s t template)
    (hlook : t'.look isTemplate (outputPlace template) =
        t.look isTemplate (outputPlace template) ∨
      t'.look isTemplate (outputPlace template) = settled s t template) :
    verdict s t' template = verdict s t template := by
  rcases hlook with hlook | hlook
  · rw [verdict, verdict, hemitted, hlook]
  · -- What was written the first time is equal to what is emitted the second time.
    rw [verdict, hemitted, hlook, settled, verdict]
    cases emitted s t template with
    | error e =>
        rfl
    | ok content =>
        cases t.look isTemplate (outputPlace template) with
        | nothing =>
            simp [ok_bind]
        | directory names =>
            rfl
        | file old =>
            by_cases hwrite : old = content ∨ Generated.isGenerated old = true
            · simp [ok_bind, hwrite]
            · simp [ok_bind, hwrite]

end Settled

/-! ## Runs -/

/-- How a tree looks when some templates are done, compared to the tree before the run. -/
structure Progress (s : Settings) (before : FileTree) (done : List Bytes) (t : FileTree) :
    Prop where
  root : t.isDirectory = true
  elsewhere : ∀ place, (∀ template ∈ done, place ≠ outputPlace template) →
    t.look isTemplate place = before.look isTemplate place
  outputs : ∀ template ∈ done,
    t.look isTemplate (outputPlace template) = settled s before template

section Runs

variable {s : Settings} {before t : FileTree} {done : List Bytes}

theorem Progress.start
    (hroot : before.isDirectory = true) :
    Progress s before [] before where
  root := hroot
  elsewhere _ _ := rfl
  outputs _ hmem := absurd hmem List.not_mem_nil

theorem Progress.look_cases
    (h : Progress s before done t)
    (place : List Bytes) :
    t.look isTemplate place = before.look isTemplate place ∨ ∃ template ∈ done,
      place = outputPlace template ∧ t.look isTemplate place = settled s before template := by
  by_cases hplace : ∃ template ∈ done, place = outputPlace template
  · obtain ⟨template, hmem, rfl⟩ := hplace
    exact .inr ⟨template, hmem, rfl, h.outputs template hmem⟩
  · exact .inl (h.elsewhere place fun template hmem heq => hplace ⟨template, hmem, heq⟩)

/-- The directories of the tree look as before the run. -/
theorem Progress.look_directory
    (h : Progress s before done t)
    {place names : List Bytes}
    (hdir : before.look isTemplate place = .directory names) :
    t.look isTemplate place = before.look isTemplate place := by
  rcases h.look_cases place with heq | ⟨template, _, rfl, heq⟩
  · exact heq
  · -- A directory can have the name of an output; its template fails then.
    rw [heq, settled_of_directory hdir, hdir]

/-- An output is written to for the sake of its own template only. -/
theorem Progress.look_output
    (h : Progress s before done t)
    (hdone : ∀ other ∈ done, Stands before other)
    {template : Bytes}
    (htemplate : Stands before template) :
    t.look isTemplate (outputPlace template) = before.look isTemplate (outputPlace template) ∨
      t.look isTemplate (outputPlace template) = settled s before template := by
  rcases h.look_cases (outputPlace template) with heq | ⟨other, hmem, hplace, heq⟩
  · exact .inl heq
  · obtain rfl := outputPlace_inj htemplate (hdone other hmem) hplace
    exact .inr heq

section Step

variable {template : Bytes}

/-- A template looks as before the run. -/
theorem Progress.look_template
    (h : Progress s before done t)
    (hdone : ∀ other ∈ done, Stands before other)
    {es : List Bytes} {n : Bytes}
    (hat : IsTemplateAt before es n) :
    t.look isTemplate (es ++ [n]) = before.look isTemplate (es ++ [n]) :=
  h.elsewhere _ fun other hother => hat.ne_outputPlace (hdone other hother)

theorem Progress.stands
    (h : Progress s before done t)
    (hdone : ∀ other ∈ done, Stands before other)
    (htemplate : Stands before template) :
    Stands t template := by
  obtain ⟨es, n, rfl, hat⟩ := htemplate
  obtain ⟨source, _, hsource, _⟩ := hat.exists_look
  have hfile := (h.look_template hdone hat).trans hsource
  exact ⟨es, n, rfl, hat.proper, hat.named, source, FileTree.look_eq_file_iff.1 hfile⟩

/-- The verdict on a template is that before the run. -/
theorem Progress.verdict_eq
    (h : Progress s before done t)
    (hroot : before.isDirectory = true)
    (hdone : ∀ other ∈ done, Stands before other)
    (htemplate : Stands before template) :
    verdict s t template = verdict s before template := by
  refine verdict_congr ?_ (h.look_output hdone htemplate)
  obtain ⟨es, n, rfl, hat⟩ := htemplate
  obtain ⟨_, names, _, hdir⟩ := hat.exists_look
  exact emitted_congr hroot h.root hat (h.look_template hdone hat) (h.look_directory hdir) s

/-- One more template fails as it would have failed before the run, and its output is settled as it
would have been then. -/
theorem progress_after
    (hroot : before.isDirectory = true)
    (hdone : ∀ other ∈ done, Stands before other)
    (h : Progress s before done t)
    (htemplate : Stands before template) :
    failureOf s t template = failureOf s before template ∧
      Progress s before (done ++ [template]) (after s t template) := by
  have hstands := h.stands hdone htemplate
  have hverdict := h.verdict_eq hroot hdone htemplate
  obtain ⟨hroot', hlook⟩ := look_after s h.root hstands
  have hsettled : (after s t template).look isTemplate (outputPlace template) =
      settled s before template := by
    rw [hlook, if_pos rfl, settled, settled, hverdict]
    cases hbefore : verdict s before template with
    | ok sight =>
        rfl
    | error e =>
        rcases h.look_output hdone htemplate with heq | heq
        · exact heq
        · rw [heq, settled, hbefore]
  refine ⟨?_, hroot', ?_, ?_⟩
  · rw [failureOf_eq s h.root hstands, failureOf_eq s hroot htemplate, hverdict]
  · intro place hplace
    rw [hlook, if_neg (hplace template (by simp))]
    exact h.elsewhere place fun other hother => hplace other (List.mem_append_left _ hother)
  · intro other hother
    by_cases heq : other = template
    · rw [heq]
      exact hsettled
    · have hmem : other ∈ done := by
        rcases List.mem_append.1 hother with hmem | hmem
        · exact hmem
        · exact absurd (List.mem_singleton.1 hmem) heq
      have hne : outputPlace other ≠ outputPlace template :=
        fun h => heq (outputPlace_inj (hdone other hmem) htemplate h)
      rw [hlook, if_neg hne, h.outputs other hmem]

end Step

/-- A run over templates, in any order, fails at each of them as it would have failed at first. -/
theorem progress_generateEach
    (hroot : before.isDirectory = true)
    (order : List Bytes)
    (hdone : ∀ template ∈ done, Stands before template)
    (horder : ∀ template ∈ order, Stands before template)
    (h : Progress s before done t) :
    (generateEach s t order).1 = order.map (failureOf s before) ∧
      Progress s before (done ++ order) (generateEach s t order).2 := by
  induction order generalizing done t with
  | nil =>
      rw [List.append_nil]
      exact ⟨rfl, h⟩
  | cons template rest ih =>
      obtain ⟨htemplate, hrest⟩ := List.forall_mem_cons.1 horder
      obtain ⟨hfailure, hstep⟩ := progress_after hroot hdone h htemplate
      have hdone' : ∀ other ∈ done ++ [template], Stands before other := by
        intro other hother
        rcases List.mem_append.1 hother with hother | hother
        · exact hdone other hother
        · exact List.mem_singleton.1 hother ▸ htemplate
      obtain ⟨hfailures, hall⟩ := ih hdone' hrest hstep
      rw [List.append_assoc] at hall
      rw [generateEach_cons]
      refine ⟨?_, hall⟩
      rw [hfailure, hfailures, List.map_cons]

end Runs

end Command
end Stencil
