import Mathlib.Data.List.Basic
import Stencil.Code.Source
import Stencil.Proofs.Chunk
import Stencil.Proofs.File.Place

/-!
# Writing generated files again

A draft begins with the line that marks a file as generated, whatever the name of its template and
the code behind it hold, and a formatter keeps the comment at the front of a draft.  So a file that
was emitted can be replaced by the next one, and any other file is refused.

Algorithm: `Ready` is the invariant of a run of writes to one place: a directory is there for the
file, and at the place of the file there is nothing or a generated file.  A write of an emitted file
keeps it, so no write of a run is refused.

Results: `Generated.isGenerated_fileOf` and `Generated.emitted_files_are_replaced`.
-/

namespace Stencil
namespace Generated

/-! ## The marking line -/

theorem newline_notMem_header :
    Ascii.newline ∉ Source.header := by
  decide

theorem isGenerated_header
    (rest : Bytes) :
    isGenerated (Source.header ++ Ascii.newline :: rest) = true := by
  have hshort : ¬ lineLimit ≤ Source.header.length := by decide
  have hmark : isMark (chomp Source.header) = true := by decide
  rw [isGenerated, Bytes.splitOn_append, Bytes.splitOn_of_notMem newline_notMem_header,
    List.singleton_append, marked, if_neg hshort, if_pos hmark]

/-- A formatter that keeps the first line of a draft, which is a comment. -/
def KeepsFirstComment (format : Source.Formatter) : Prop :=
  ∀ (d : Source.Draft) (line rest file : Bytes), d.text = line ++ Ascii.newline :: rest →
    Ascii.newline ∉ line → Source.isComment line = true → format d = some file →
    ∃ rest', file = line ++ Ascii.newline :: rest'

/-- A draft begins with the marking line. -/
theorem exists_draft_text
    (d : Source.Draft) :
    ∃ rest, d.text = Source.header ++ Ascii.newline :: rest := by
  rw [Source.Draft.text]
  exact ⟨_, by simp only [List.append_assoc]; rfl⟩

theorem keepsFirstComment_tidy :
    KeepsFirstComment Source.tidy := by
  intro d line rest file htext hline _ hfile
  obtain ⟨behind, hdraft⟩ := exists_draft_text d
  obtain ⟨rfl, -⟩ := Bytes.append_cons_inj hline newline_notMem_header (htext.symm.trans hdraft)
  obtain ⟨comment, -, hlaid⟩ := Option.bind_eq_some_iff.1 hfile
  simp only [Option.ite_none_right_eq_some, Option.some.injEq] at hlaid
  exact ⟨_, by rw [← hlaid.2]; simp only [List.append_assoc]; rfl⟩

/-- Every emitted file is recognised as generated. -/
theorem isGenerated_fileOf
    {format : Source.Formatter}
    (hformat : KeepsFirstComment format)
    {p : Program} {package function source : Bytes}
    (h : Source.fileOf format p package function = .ok source) :
    isGenerated source = true := by
  unfold Source.fileOf at h
  split at h
  · cases h
  split at h
  · cases h
  split at h
  · next hfile =>
      cases h
      obtain ⟨rest, hdraft⟩ := exists_draft_text _
      obtain ⟨rest', rfl⟩ := hformat _ _ _ _ hdraft newline_notMem_header (by decide) hfile
      exact isGenerated_header rest'
  · cases h

/-! ## Writes to one place -/

/-- One write: its report and the tree afterwards, which is the old one when the write fails. -/
def attempt (path content : Bytes) (t : FileTree) : Except WriteError Bool × FileTree :=
  match writeGenerated path content t with
  | .ok (written, t') => (.ok written, t')
  | .error e => (.error e, t)

/-- Contents written one after the other to one place. -/
def attemptAll (path : Bytes) :
    List Bytes → FileTree → List (Except WriteError Bool) × FileTree
  | [], t => ([], t)
  | content :: rest, t =>
    let (report, t) := attempt path content t
    let (reports, t) := attemptAll path rest t
    (report :: reports, t)

/-- A clean absolute name. -/
structure IsPlace (path : Bytes) : Prop where
  absolute : FileName.isAbsolute path = true
  clean : FileName.clean path = path

theorem IsPlace.eq_ofElements
    {path : Bytes}
    (h : IsPlace path) :
    path = FileName.ofElements true (FileName.elements path) :=
  h.clean.symm.trans (FileName.clean_of_isAbsolute h.absolute)

/-- What stands at a place, where of a directory only that it is one is seen. -/
def sight (t : FileTree) (place : List Bytes) : FileTree.Sight := t.look (fun _ => false) place

/-- What can be read at a place depends on what stands there. -/
theorem toOption_contentOf_congr
    {t u : FileTree} {path : Bytes}
    (hplace : IsPlace path)
    (ht : t.isDirectory = true)
    (hu : u.isDirectory = true)
    (h : sight t (FileName.elements path) = sight u (FileName.elements path)) :
    (t.contentOf [] path).toOption = (u.contentOf [] path).toOption := by
  have hproper := FileName.proper_elements hplace.absolute
  rw [hplace.eq_ofElements, FileTree.toOption_contentOf ht hproper,
    FileTree.toOption_contentOf hu hproper]
  rw [sight, sight] at h
  rw [h]

/-- The state between writes to one place: its directory is there, and at the place there is nothing
or a generated file. -/
structure Ready (es : List Bytes) (e : Bytes) (t : FileTree) : Prop where
  root : t.isDirectory = true
  directory : ∃ names, sight t es = .directory names
  free : sight t (es ++ [e]) = .nothing ∨
    ∃ old, sight t (es ++ [e]) = .file old ∧ isGenerated old = true

section Step

variable {es : List Bytes} {e : Bytes} {t : FileTree}

theorem Ready.sight_set
    (h : Ready es e t)
    (content : Bytes) (place : List Bytes) :
    sight (t.set (es ++ [e]) (.file content)) place =
      if place = es ++ [e] then .file content else sight t place := by
  obtain ⟨names, hnames⟩ := h.directory
  refine FileTree.look_set hnames (fun inside hinside => ?_) rfl content place
  rcases h.free with hfree | ⟨old, hfree, _⟩
  · cases hinside.symm.trans hfree
  · cases hinside.symm.trans hfree

theorem Ready.set
    (h : Ready es e t)
    {content : Bytes}
    (hcontent : isGenerated content = true) :
    Ready es e (t.set (es ++ [e]) (.file content)) where
  root := FileTree.isDirectory_set t (by simp) _
  directory := by
    obtain ⟨names, hnames⟩ := h.directory
    exact ⟨names, by rw [h.sight_set, if_neg (by simp), hnames]⟩
  free := Or.inr ⟨content, by rw [h.sight_set, if_pos rfl], hcontent⟩

/-- A write of a generated file: it is done unless the file stands there already. -/
theorem Ready.writeGenerated
    (hproper : ∀ f ∈ es ++ [e], FileName.Proper f)
    (h : Ready es e t)
    (content : Bytes) :
    writeGenerated (FileName.ofElements true (es ++ [e])) content t =
      if sight t (es ++ [e]) = .file content then .ok (false, t)
      else .ok (true, t.set (es ++ [e]) (.file content)) := by
  obtain ⟨names, hnames⟩ := h.directory
  have hwrite := FileTree.writeGenerated_ofElements h.root hproper hnames content
  rcases h.free with hfree | ⟨old, hfree, hold⟩
  · rw [show t.look _ _ = _ from hfree] at hwrite
    rw [hwrite, hfree, if_neg (by simp)]
  · rw [show t.look _ _ = _ from hfree] at hwrite
    rw [hwrite, hfree]
    simp [hold]

/-- A generated file written to its place stands there, and everything else looks as before. -/
theorem attempt_of_ready
    (hproper : ∀ f ∈ es ++ [e], FileName.Proper f)
    (h : Ready es e t)
    {content : Bytes}
    (hcontent : isGenerated content = true) :
    ∃ t', attempt (FileName.ofElements true (es ++ [e])) content t =
        (.ok (decide (sight t (es ++ [e]) ≠ .file content)), t') ∧
      Ready es e t' ∧ sight t' (es ++ [e]) = .file content ∧
      ∀ place, place ≠ es ++ [e] → sight t' place = sight t place := by
  rw [attempt, h.writeGenerated hproper]
  by_cases hsame : sight t (es ++ [e]) = .file content
  · refine ⟨t, ?_, h, hsame, fun place _ => rfl⟩
    simp [hsame]
  · refine ⟨_, ?_, h.set hcontent, ?_, fun place hplace => ?_⟩
    · simp [hsame]
    · rw [h.sight_set, if_pos rfl]
    · rw [h.sight_set, if_neg hplace]

end Step

/-! ## Runs of writes -/

section Run

variable {es : List Bytes} {e : Bytes} {t : FileTree} {path : Bytes}

/-- What happens at one of some writes: it is a write in the tree that the earlier ones lead to. -/
theorem attemptAll_at
    (path : Bytes) (t : FileTree) {contents : List Bytes} {i : Nat} {content : Bytes}
    (h : contents[i]? = some content) :
    let before := (attemptAll path (contents.take i) t).2
    (attemptAll path contents t).1[i]? = some (attempt path content before).1 ∧
      (attemptAll path (contents.take (i + 1)) t).2 = (attempt path content before).2 := by
  induction contents generalizing t i with
  | nil =>
      cases h
  | cons first rest ih =>
      cases i with
      | zero =>
          cases h
          exact ⟨rfl, rfl⟩
      | succ i =>
          exact ih _ h

/-- A run of writes of generated files keeps the place ready and everything else as it is, and none
of them fails. -/
theorem attemptAll_of_ready
    (hproper : ∀ f ∈ es ++ [e], FileName.Proper f)
    (h : Ready es e t)
    {contents : List Bytes}
    (hcontents : ∀ content ∈ contents, isGenerated content = true) :
    let run := attemptAll (FileName.ofElements true (es ++ [e])) contents t
    Ready es e run.2 ∧ (∀ report ∈ run.1, ∃ written, report = .ok written) ∧
      ∀ place, place ≠ es ++ [e] → sight run.2 place = sight t place := by
  induction contents generalizing t with
  | nil =>
      exact ⟨h, fun report hreport => absurd hreport List.not_mem_nil, fun place _ => rfl⟩
  | cons content rest ih =>
      obtain ⟨hcontent, hrest⟩ := List.forall_mem_cons.1 hcontents
      obtain ⟨t', hattempt, hready, _, hframe⟩ := attempt_of_ready hproper h hcontent
      obtain ⟨hready', hreports, hframe'⟩ := ih hready hrest
      simp only [attemptAll, hattempt]
      refine ⟨hready', List.forall_mem_cons.2 ⟨⟨_, rfl⟩, hreports⟩, fun place hplace => ?_⟩
      rw [hframe' place hplace, hframe place hplace]

/-- Writes that fail in the same way, whatever is written, leave the tree as it is. -/
theorem attemptAll_of_fails
    {failure : WriteError}
    (h : ∀ content, attempt path content t = (.error failure, t))
    (contents : List Bytes) :
    attemptAll path contents t = (contents.map fun _ => .error failure, t) := by
  induction contents with
  | nil =>
      rfl
  | cons content rest ih =>
      rw [attemptAll, h]
      simp only [ih, List.map_cons]

end Run

/-! ## Where nothing is -/

section Missing

variable {t : FileTree} {path : Bytes}

/-- Where a file is missing the tree is a directory, and the place lies in it. -/
theorem resolve_of_missing
    (hplace : IsPlace path)
    (habsent : ∃ failure, t.contentOf [] path = .error failure ∧ failure.cause = .missing) :
    ∃ es e, path = FileName.ofElements true (es ++ [e]) ∧
      (∀ f ∈ es ++ [e], FileName.Proper f) ∧ t.isDirectory = true ∧
      t.resolve (es ++ [e]) = .error .missing := by
  obtain ⟨failure, hfailure, hcause⟩ := habsent
  have hproper := FileName.proper_elements hplace.absolute
  have hpath := hplace.eq_ofElements
  generalize FileName.elements path = place at hproper hpath
  subst hpath
  have hroot : t.isDirectory = true := by
    cases t with
    | file content =>
        have hempty : (FileName.ofElements true place).isEmpty = false := rfl
        have hfind : (FileTree.file content).find [] (FileName.ofElements true place) =
            .error .notDirectory := by
          rw [FileTree.find, hempty, if_neg Bool.false_ne_true]
          simp only [FileName.isAbsolute_ofElements, if_true, FileName.splitOn_ofElements hproper]
          rfl
        rw [FileTree.contentOf, FileTree.get, hfind] at hfailure
        cases hfailure
        cases hcause
    | directory entries =>
        rfl
  have hmissing : t.resolve place = .error .missing := by
    rw [FileTree.contentOf, FileTree.get, FileTree.find_ofElements hroot hproper] at hfailure
    cases hresolve : t.resolve place with
    | error cause =>
        rw [hresolve] at hfailure
        cases hfailure
        exact congrArg Except.error hcause
    | ok u =>
        rw [hresolve] at hfailure
        cases u with
        | file content =>
            cases hfailure
        | directory entries =>
            cases hfailure
            cases hcause
  rcases List.eq_nil_or_concat' place with rfl | ⟨es, e, rfl⟩
  · cases hmissing
  · exact ⟨es, e, rfl, hproper, hroot, hmissing⟩

/-- Where the directory is missing as well, nothing can be written. -/
theorem attempt_of_unreachable
    {es : List Bytes} {e : Bytes}
    (hproper : ∀ f ∈ es ++ [e], FileName.Proper f)
    (hroot : t.isDirectory = true)
    (hmissing : t.resolve (es ++ [e]) = .error .missing)
    (hdirectory : ∀ entries, t.resolve es ≠ .ok (.directory entries))
    (content : Bytes) :
    let path := FileName.ofElements true (es ++ [e])
    attempt path content t = (.error (.file ⟨.openFile, path, .missing⟩), t) := by
  obtain ⟨hfront, he⟩ := List.forall_mem_append.1 hproper
  have habove : t.resolve es = .error .missing := by
    rw [FileTree.resolve_append] at hmissing
    cases hes : t.resolve es with
    | error cause =>
        rw [hes] at hmissing
        exact hmissing
    | ok u =>
        rw [hes] at hmissing
        cases u with
        | file old =>
            cases hmissing
        | directory entries =>
            exact absurd hes (hdirectory entries)
  have hput : t.put (FileName.ofElements true (es ++ [e])) content =
      .error ⟨.openFile, FileName.ofElements true (es ++ [e]), .missing⟩ := by
    rw [FileTree.put, FileName.dir_ofElements hfront (he e (List.mem_singleton.2 rfl)),
      FileTree.find_ofElements hroot hfront, habove]
  have hcontent := FileTree.contentOf_missing hroot hproper hmissing
  simp only [attempt, writeGenerated, hcontent, if_true, hput]

theorem ready_of_missing
    {es : List Bytes} {e : Bytes} {entries : List (Bytes × FileTree)}
    (hroot : t.isDirectory = true)
    (hmissing : t.resolve (es ++ [e]) = .error .missing)
    (hdirectory : t.resolve es = .ok (.directory entries)) :
    Ready es e t where
  root := hroot
  directory := ⟨_, FileTree.look_eq_directory_iff.2 ⟨entries, hdirectory, rfl⟩⟩
  free := by
    left
    rw [sight, FileTree.look, hmissing]

theorem ready_of_entriesOf
    {es : List Bytes} {e : Bytes} {entries : List (Bytes × FileTree)}
    (hproper : ∀ f ∈ es ++ [e], FileName.Proper f)
    (hroot : t.isDirectory = true)
    (hmissing : t.resolve (es ++ [e]) = .error .missing)
    (h : t.entriesOf [] (FileName.dir (FileName.ofElements true (es ++ [e]))) = .ok entries) :
    Ready es e t := by
  obtain ⟨hfront, he⟩ := List.forall_mem_append.1 hproper
  rw [FileTree.entriesOf, FileTree.get,
    FileName.dir_ofElements hfront (he e (List.mem_singleton.2 rfl)),
    FileTree.find_ofElements hroot hfront] at h
  cases hes : t.resolve es with
  | error cause =>
      rw [hes] at h
      cases h
  | ok u =>
      cases u with
      | file content =>
          rw [hes] at h
          cases h
      | directory inner =>
          exact ready_of_missing hroot hmissing hes

end Missing

/-- Files that are emitted for any programs, with any formatter that keeps the comment at their front,
and are written one after the other to a place where nothing is are never refused.  When the
directory of the place is there, each of them then stands at the place, which is reported as a write
exactly when something else stood there before, and no other file changes.  A content that is
neither generated nor the new one is never replaced. -/
theorem emitted_files_are_replaced
    (t : FileTree) {path : Bytes} (sources : List Bytes) {format : Source.Formatter}
    (hformat : KeepsFirstComment format)
    (hplace : IsPlace path)
    (habsent : ∃ failure, t.contentOf [] path = .error failure ∧ failure.cause = .missing)
    (hsources : ∀ source ∈ sources,
      ∃ p package function, Source.fileOf format p package function = .ok source) :
    (∀ report ∈ (attemptAll path sources t).1, ∀ name, report ≠ .error (.notGenerated name)) ∧
    ((∃ entries, t.entriesOf [] (FileName.dir path) = .ok entries) →
      ∀ i source, sources[i]? = some source →
        let before := (attemptAll path (sources.take i) t).2
        let after := (attemptAll path (sources.take (i + 1)) t).2
        (attemptAll path sources t).1[i]? =
            some (.ok (decide ((before.contentOf [] path).toOption ≠ some source))) ∧
          after.contentOf [] path = .ok source ∧
          ∀ other, IsPlace other → other ≠ path →
            (after.contentOf [] other).toOption = (t.contentOf [] other).toOption) ∧
    ∀ (u : FileTree) (name old source : Bytes), u.contentOf [] name = .ok old →
      isGenerated old = false → old ≠ source →
      attempt name source u = (.error (.notGenerated name), u) := by
  have hgenerated : ∀ source ∈ sources, isGenerated source = true := by
    intro source hsource
    obtain ⟨p, package, function, hemitted⟩ := hsources source hsource
    exact isGenerated_fileOf hformat hemitted
  obtain ⟨es, e, rfl, hproper, hroot, hmissing⟩ := resolve_of_missing hplace habsent
  refine ⟨?_, ?_, ?_⟩
  · rintro _ hreport name rfl
    by_cases hdirectory : ∃ entries, t.resolve es = .ok (.directory entries)
    · obtain ⟨entries, hentries⟩ := hdirectory
      have hready := ready_of_missing hroot hmissing hentries
      obtain ⟨written, hwritten⟩ :=
        (attemptAll_of_ready hproper hready hgenerated).2.1 _ hreport
      cases hwritten
    · have hfails := attempt_of_unreachable hproper hroot hmissing (not_exists.1 hdirectory)
      rw [attemptAll_of_fails hfails] at hreport
      obtain ⟨_, _, hfailure⟩ := List.mem_map.1 hreport
      cases hfailure
  · rintro ⟨entries, hentries⟩ i source hi before after
    have hready := ready_of_entriesOf hproper hroot hmissing hentries
    obtain ⟨hreport, hafter⟩ := attemptAll_at (FileName.ofElements true (es ++ [e])) t hi
    have hfirst : ∀ source ∈ sources.take i, isGenerated source = true :=
      fun source hsource => hgenerated source (List.mem_of_mem_take hsource)
    obtain ⟨hbefore, _, hframe⟩ := attemptAll_of_ready hproper hready hfirst
    obtain ⟨t', hattempt, ht', hstands, hframe'⟩ :=
      attempt_of_ready hproper hbefore (hgenerated source (List.mem_of_getElem? hi))
    rw [hattempt] at hreport hafter
    have hafter : after = t' := hafter
    rw [hafter]
    have hread := (FileTree.contentOf_eq_ok_iff ht'.root hproper).2 hstands
    refine ⟨?_, hread, fun other hother hne => ?_⟩
    · have hsame : (before.contentOf [] (FileName.ofElements true (es ++ [e]))).toOption =
          some source ↔ sight before (es ++ [e]) = .file source := by
        refine Iff.trans ⟨eq_ok_of_toOption_eq_some, fun hread => ?_⟩
          (FileTree.contentOf_eq_ok_iff hbefore.root hproper)
        rw [hread]
        rfl
      rw [hreport, decide_eq_decide.2 (not_congr hsame)]
    · have hother' : FileName.elements other ≠ es ++ [e] := fun heq =>
        hne (hother.eq_ofElements.trans (congrArg _ heq))
      refine toOption_contentOf_congr hother ht'.root hroot ?_
      rw [hframe' _ hother', hframe _ hother']
  · intro u name old source hold hforeign hother
    simp only [attempt, writeGenerated, hold, if_neg hother, hforeign, if_neg Bool.false_ne_true]

/-- A program whose name and text hold lines like those that are looked for in a file. -/
def trickyProgram (text : String) : Program :=
  ⟨utf8 "x.hbx\n//package p\n// DO NOT EDIT.", [.literal (utf8 "\npackage p\n" ++ utf8 text)]⟩

/-- A directory with a file that was written by hand. -/
def handWritten : FileTree :=
  .directory [(utf8 "p", .directory [(utf8 "y.go", .file (utf8 "package p\n"))])]

/-- An emitted file is replaced by another one, which then is left alone. -/
theorem emitted_files_are_replaced_tricky :
    KeepsFirstComment Source.tidy ∧ ∃ first second,
      Source.ofProgram (trickyProgram "a") (utf8 "p") (utf8 "F") = .ok first ∧
      Source.ofProgram (trickyProgram "b") (utf8 "p") (utf8 "F") = .ok second ∧
      IsPlace (utf8 "/p/x.go") ∧
      (∃ failure, handWritten.contentOf [] (utf8 "/p/x.go") = .error failure ∧
        failure.cause = .missing) ∧
      let reports := (attemptAll (utf8 "/p/x.go") [first, second, second] handWritten).1
      reports[0]? = some (.ok true) ∧ reports[2]? = some (.ok false) ∧
      attempt (utf8 "/p/y.go") first handWritten =
        (.error (.notGenerated (utf8 "/p/y.go")), handWritten) := by
  have hemitted : ∀ text ∈ ["a", "b"],
      ∃ source, Source.ofProgram (trickyProgram text) (utf8 "p") (utf8 "F") = .ok source := by
    intro text htext
    rw [← isOk_eq_true_iff]
    simp only [List.mem_cons, List.not_mem_nil, or_false] at htext
    rcases htext with rfl | rfl <;> decide +kernel
  obtain ⟨first, hfirst⟩ := hemitted "a" (by simp)
  obtain ⟨second, hsecond⟩ := hemitted "b" (by simp)
  have hplace : IsPlace (utf8 "/p/x.go") := ⟨by decide, by decide⟩
  have habsent : ∃ failure, handWritten.contentOf [] (utf8 "/p/x.go") = .error failure ∧
      failure.cause = .missing := ⟨_, rfl, rfl⟩
  have hsources : ∀ source ∈ [first, second, second],
      ∃ p package function, Source.fileOf Source.tidy p package function = .ok source := by
    intro source hsource
    simp only [List.mem_cons, List.not_mem_nil, or_false, or_self] at hsource
    rcases hsource with rfl | rfl
    · exact ⟨_, _, _, hfirst⟩
    · exact ⟨_, _, _, hsecond⟩
  obtain ⟨_, hruns, hrefused⟩ := emitted_files_are_replaced handWritten _
    keepsFirstComment_tidy hplace habsent hsources
  have hwrites := hruns ⟨_, rfl⟩
  refine ⟨keepsFirstComment_tidy, first, second, hfirst, hsecond, hplace, habsent,
    (hwrites 0 first rfl).1, ?_, ?_⟩
  · have hbefore := (hwrites 1 second rfl).2.1
    rw [(hwrites 2 second rfl).1, hbefore]
    simp [Except.toOption]
  · refine hrefused handWritten _ (utf8 "package p\n") first rfl (by decide) ?_
    rintro rfl
    exact absurd (isGenerated_fileOf keepsFirstComment_tidy hfirst) (by decide)

end Generated
end Stencil
