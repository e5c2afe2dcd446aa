import Stencil.Proofs.Command.Selection
import Stencil.Proofs.Sorted

/-!
# Patterns as a set

The templates that patterns select are put in order and each is listed once, so they are the union of
what the single patterns select: neither the order of the patterns nor a pattern that is given twice
nor one that selects nothing new makes a difference.

A list in strictly increasing order is determined by its members, so it is enough to compare unions.

Results: `exists_select` and `eq_of_increasing`, and from them `selection_is_ordered_union`.
-/

namespace Stencil

/-! ## Strictly increasing lists of names -/

namespace Bytes

/-- The order of byte strings is the lexicographic one. -/
theorem lex_iff
    {s t : Bytes} :
    List.Lex (· < ·) s t ↔ le s t = true ∧ s ≠ t := by
  induction s generalizing t with
  | nil =>
      cases t with
      | nil =>
          refine ⟨fun h => ?_, fun h => absurd rfl h.2⟩
          cases h
      | cons b t =>
          exact ⟨fun _ => ⟨rfl, (List.cons_ne_nil b t).symm⟩, fun _ => .nil⟩
  | cons a s ih =>
      cases t with
      | nil =>
          refine ⟨fun h => ?_, fun h => absurd h.1 Bool.false_ne_true⟩
          cases h
      | cons b t =>
          rw [le_cons_iff]
          constructor
          · intro h
            cases h with
            | rel hab =>
                exact ⟨.inl hab, fun heq => UInt8.lt_irrefl a ((List.cons.inj heq).1 ▸ hab)⟩
            | cons hst =>
                obtain ⟨hle, hne⟩ := ih.1 hst
                exact ⟨.inr ⟨rfl, hle⟩, fun heq => hne (List.cons.inj heq).2⟩
          · rintro ⟨hab | ⟨rfl, hle⟩, hne⟩
            · exact .rel hab
            · exact .cons (ih.2 ⟨hle, fun heq => hne (heq ▸ rfl)⟩)

/-- Names in strictly increasing order. -/
def Increasing (names : List Bytes) : Prop := names.Pairwise (List.Lex (· < ·))

theorem nodup_of_increasing
    {names : List Bytes}
    (h : Increasing names) :
    names.Nodup :=
  h.imp fun hlt => (lex_iff.1 hlt).2

/-- A list in strictly increasing order is determined by its members. -/
theorem eq_of_increasing
    {names others : List Bytes}
    (h : Increasing names)
    (h' : Increasing others)
    (hmem : ∀ name, name ∈ names ↔ name ∈ others) :
    names = others := by
  have hperm := (List.perm_ext_iff_of_nodup (nodup_of_increasing h) (nodup_of_increasing h')).2 hmem
  refine List.Perm.eq_of_pairwise (fun a b _ _ hab hba => ?_) h h' hperm
  exact le_antisymm (lex_iff.1 hab).1 (lex_iff.1 hba).1

theorem nodup_eraseDups
    (names : List Bytes) :
    names.eraseDups.Nodup := by
  induction hlength : names.length using Nat.strongRecOn generalizing names with
  | ind length ih =>
      cases names with
      | nil =>
          exact List.nodup_nil
      | cons name rest =>
          rw [List.eraseDups_cons]
          refine List.nodup_cons.2 ⟨fun hmem => ?_, ih _ ?_ _ rfl⟩
          · simpa using (List.mem_filter.1 (List.mem_eraseDups.1 hmem)).2
          · rw [← hlength, List.length_cons]
            exact Nat.lt_succ_of_le (List.length_filter_le _ rest)

theorem increasing_mergeSort
    {names : List Bytes}
    (h : names.Nodup) :
    Increasing (names.mergeSort le) := by
  have hsorted := @List.pairwise_mergeSort _ le (fun _ _ _ => le_trans) le_total names
  have hdistinct := (List.mergeSort_perm names le).nodup_iff.2 h
  exact (hsorted.and hdistinct).imp lex_iff.2

end Bytes

namespace Command

/-! ## The ending of selected names -/

/-- A name that ends in bytes without the separator has a last piece that does. -/
theorem splitOn_append_of_notMem
    {sep : UInt8} {suffix : Bytes}
    (h : sep ∉ suffix)
    (s : Bytes) :
    ∃ front last, Bytes.splitOn sep (s ++ suffix) = front ++ [last ++ suffix] := by
  induction s with
  | nil =>
      exact ⟨[], [], Bytes.splitOn_of_notMem h⟩
  | cons b s ih =>
      obtain ⟨front, last, hpieces⟩ := ih
      rw [List.cons_append, Bytes.splitOn, hpieces]
      split
      · exact ⟨[] :: front, last, rfl⟩
      · cases front with
        | nil =>
            exact ⟨[], b :: last, rfl⟩
        | cons piece front =>
            exact ⟨(b :: piece) :: front, last, rfl⟩

theorem suffix_join_concat
    (sep : Bytes) (pieces : List Bytes) (last : Bytes) :
    last <:+ Bytes.join sep (pieces ++ [last]) := by
  induction pieces with
  | nil =>
      exact List.suffix_refl last
  | cons piece rest ih =>
      cases hrest : rest ++ [last] with
      | nil =>
          exact absurd hrest (by simp)
      | cons next more =>
          rw [hrest] at ih
          rw [List.cons_append, hrest, Bytes.join]
          exact ih.trans (List.suffix_append _ _)

/-- The last element of a name with the ending stays when the name is cleaned. -/
theorem isTemplate_clean
    {name : Bytes}
    (h : isTemplate name = true) :
    isTemplate (FileName.clean name) = true := by
  rw [isTemplate, Bytes.endsWith_iff_suffix] at h ⊢
  obtain ⟨s, rfl⟩ := h
  obtain ⟨front, last, hpieces⟩ := splitOn_append_of_notMem (by decide : Ascii.slash ∉ ending) s
  have hslash : Ascii.slash ∉ last ++ ending :=
    Bytes.notMem_of_mem_splitOn (hpieces ▸ List.mem_append_right front List.mem_cons_self)
  have hlength : ∀ short : Bytes, short.length < 4 → last ++ ending ≠ short := by
    rintro _ hshort rfl
    rw [List.length_append] at hshort
    exact absurd hshort (Nat.not_lt.2 (Nat.le_add_left 4 last.length))
  have hproper : FileName.Proper (last ++ ending) :=
    ⟨hlength _ (by decide), hslash, hlength _ (by decide), hlength _ (by decide)⟩
  obtain ⟨rest, helements⟩ : ∃ rest, FileName.elements (s ++ ending) = rest ++ [last ++ ending] := by
    rw [FileName.elements, hpieces, List.foldl_append, List.foldl_cons, List.foldl_nil,
      FileName.step_of_proper hproper, List.reverse_cons]
    exact ⟨_, rfl⟩
  rw [FileName.clean, helements, FileName.ofElements]
  refine (List.suffix_append last ending).trans ?_
  have hjoin := suffix_join_concat [Ascii.slash] rest (last ++ ending)
  split
  · exact hjoin.trans (List.suffix_cons _ _)
  · split
    · next hempty =>
        exact absurd (List.isEmpty_iff.1 hempty) (by simp)
    · exact hjoin

theorem isTemplate_join
    {name : Bytes}
    (h : isTemplate name = true)
    (directory : Bytes) :
    isTemplate (FileName.join [directory, name]) = true := by
  have hne : name.isEmpty = false := by
    cases name with
    | nil =>
        cases h
    | cons b rest =>
        rfl
  cases directory with
  | nil =>
      have hjoin : FileName.join [[], name] = FileName.clean name := by
        simp [FileName.join, hne, Bytes.join]
      rw [hjoin]
      exact isTemplate_clean h
  | cons b rest =>
      have hjoin : FileName.join [b :: rest, name] =
          FileName.clean (b :: rest ++ [Ascii.slash] ++ name) := by
        simp [FileName.join, hne, Bytes.join]
      rw [hjoin]
      refine isTemplate_clean ?_
      rw [isTemplate, Bytes.endsWith_iff_suffix] at h ⊢
      exact h.trans (List.suffix_append _ _)

mutual

theorem isTemplate_of_walk :
    ∀ (u : FileTree) (name : Bytes), ∀ template ∈ walk name u, isTemplate template = true
  | .file _, name, template, htemplate => by
      rw [walk] at htemplate
      split at htemplate
      · next hname =>
          exact List.mem_singleton.1 htemplate ▸ hname
      · cases htemplate
  | .directory entries, name, template, htemplate => by
      rw [walk] at htemplate
      exact isTemplate_of_walkAll entries name template htemplate

theorem isTemplate_of_walkAll :
    ∀ (entries : List (Bytes × FileTree)) (directory : Bytes),
      ∀ template ∈ walkAll directory entries, isTemplate template = true
  | [], _, template, htemplate => by
      rw [walkAll] at htemplate
      cases htemplate
  | (n, u) :: rest, directory, template, htemplate => by
      rw [walkAll] at htemplate
      rcases List.mem_append.1 htemplate with hfirst | hrest
      · split at hfirst
        · cases hfirst
        · exact isTemplate_of_walk u _ template hfirst
      · exact isTemplate_of_walkAll rest directory template hrest

end

/-- Whatever a pattern selects, in any tree, has the ending of templates. -/
theorem isTemplate_of_expand
    {cwd pattern : Bytes} {t : FileTree} {selected : List Bytes}
    (h : expand cwd t pattern = .ok selected) :
    ∀ template ∈ selected, isTemplate template = true := by
  intro template htemplate
  cases expanded_of_expand h with
  | blank =>
      cases htemplate
  | walked =>
      exact isTemplate_of_walk _ _ template htemplate
  | listed =>
      obtain ⟨entry, hentry, rfl⟩ := List.mem_map.1 htemplate
      obtain ⟨-, hwanted⟩ := List.mem_filter.1 hentry
      exact isTemplate_join (Bool.and_eq_true_iff.1 hwanted).2 _
  | single _ _ _ template' =>
      exact List.mem_singleton.1 htemplate ▸ template'

/-! ## Unions -/

/-- The templates that some of the patterns select. -/
def InUnion (cwd : Bytes) (t : FileTree) (patterns : List Bytes) (template : Bytes) : Prop :=
  ∃ p ∈ patterns, ∃ selected, expand cwd t p = .ok selected ∧ template ∈ selected

section Selection

variable {cwd : Bytes} {t : FileTree} {patterns : List Bytes}

/-- Patterns that can all be expanded select their union, in order. -/
theorem exists_select
    (h : ∀ p ∈ patterns, ∃ selected, expand cwd t p = .ok selected) :
    ∃ templates, select cwd t patterns = .ok templates ∧ Bytes.Increasing templates ∧
      ∀ template, template ∈ templates ↔ InUnion cwd t patterns template := by
  cases hgroups : patterns.mapM (expand cwd t) with
  | error e =>
      obtain ⟨p, hp, herror⟩ := error_of_mapM_eq_error hgroups
      obtain ⟨selected, hok⟩ := h p hp
      rw [hok] at herror
      cases herror
  | ok groups =>
      refine ⟨groups.flatten.eraseDups.mergeSort Bytes.le, ?_,
        Bytes.increasing_mergeSort (Bytes.nodup_eraseDups _), fun template => ?_⟩
      · rw [select, hgroups]
        rfl
      · rw [List.mem_mergeSort, List.mem_eraseDups, List.mem_flatten]
        constructor
        · rintro ⟨selected, hselected, hmem⟩
          obtain ⟨p, hp, hexpand⟩ := (mem_mapM_iff hgroups selected).1 hselected
          exact ⟨p, hp, selected, hexpand, hmem⟩
        · rintro ⟨p, hp, selected, hexpand, hmem⟩
          exact ⟨selected, (mem_mapM_iff hgroups selected).2 ⟨p, hp, hexpand⟩, hmem⟩

/-- Patterns with the same union select the same. -/
theorem select_eq_of_union
    {others templates : List Bytes}
    (hothers : ∀ p ∈ others, ∃ selected, expand cwd t p = .ok selected)
    (hincreasing : Bytes.Increasing templates)
    (hunion : ∀ template, template ∈ templates ↔ InUnion cwd t others template) :
    select cwd t others = .ok templates := by
  obtain ⟨templates', hselect, hincreasing', hunion'⟩ := exists_select hothers
  rw [hselect, Bytes.eq_of_increasing hincreasing' hincreasing]
  intro template
  rw [hunion', hunion]

/-- In a proper tree a union is told by the places that the patterns select. -/
theorem inUnion_iff
    (hcwd : FileName.isAbsolute cwd = true)
    (hroot : t.isDirectory = true)
    (ht : t.isProper = true)
    (h : ∀ p ∈ patterns, ∃ selected, expand cwd t p = .ok selected)
    (template : Bytes) :
    InUnion cwd t patterns template ↔
      ∃ p ∈ patterns, ∃ es, Selects cwd t p es ∧ template = FileName.ofElements true es := by
  constructor
  · rintro ⟨p, hp, selected, hexpand, hmem⟩
    exact ⟨p, hp, (mem_expand_iff hcwd hroot ht hexpand template).1 hmem⟩
  · rintro ⟨p, hp, hselects⟩
    obtain ⟨selected, hexpand⟩ := h p hp
    exact ⟨p, hp, selected, hexpand, (mem_expand_iff hcwd hroot ht hexpand template).2 hselects⟩

/-- Templates at different places have different names. -/
theorem nodup_elements
    {templates : List Bytes}
    (hincreasing : Bytes.Increasing templates)
    (h : ∀ template ∈ templates, ∃ es, (∀ e ∈ es, FileName.Proper e) ∧
      template = FileName.ofElements true es) :
    (templates.map FileName.elements).Nodup := by
  refine List.Nodup.map_on ?_ (Bytes.nodup_of_increasing hincreasing)
  intro template htemplate template' htemplate' heq
  obtain ⟨es, hes, rfl⟩ := h template htemplate
  obtain ⟨es', hes', rfl⟩ := h template' htemplate'
  rw [FileName.elements_ofElements hes, FileName.elements_ofElements hes'] at heq
  rw [heq]

end Selection

/-- Patterns that can all be expanded select the union of what each of them selects, in strictly
increasing order.  So the patterns count as a set.  In a proper tree a template has one name only,
by whatever pattern it is selected, and a pattern that lies within another one adds nothing. -/
theorem selection_is_ordered_union
    (cwd : Bytes) (t : FileTree) (patterns : List Bytes)
    (h : ∀ p ∈ patterns, ∃ selected, expand cwd t p = .ok selected) :
    ∃ templates, select cwd t patterns = .ok templates ∧
      templates.Pairwise (List.Lex (· < ·)) ∧
      (∀ template, template ∈ templates ↔
        ∃ p ∈ patterns, ∃ selected, expand cwd t p = .ok selected ∧ template ∈ selected) ∧
      (∀ template ∈ templates, utf8 ".hbx" <:+ template) ∧
      (∀ others, (∀ p, p ∈ others ↔ p ∈ patterns) → select cwd t others = .ok templates) ∧
      (FileName.isAbsolute cwd = true → t.isDirectory = true → t.isProper = true →
        (∀ template, template ∈ templates ↔
          ∃ p ∈ patterns, ∃ es, Selects cwd t p es ∧ template = FileName.ofElements true es) ∧
        (templates.map FileName.elements).Nodup ∧
        ∀ others, (∀ p ∈ others, ∃ selected, expand cwd t p = .ok selected) →
          (∀ p ∈ patterns, p ∈ others) →
          (∀ p ∈ others, p ∈ patterns ∨ ∃ wide ∈ patterns, Covers cwd t wide p) →
            select cwd t others = .ok templates) := by
  obtain ⟨templates, hselect, hincreasing, hunion⟩ := exists_select h
  refine ⟨templates, hselect, hincreasing, hunion, fun template htemplate => ?_,
    fun others hothers => ?_, fun hcwd hroot ht => ?_⟩
  · obtain ⟨p, -, selected, hexpand, hmem⟩ := (hunion template).1 htemplate
    exact Bytes.endsWith_iff_suffix.1 (isTemplate_of_expand hexpand template hmem)
  · refine select_eq_of_union (fun p hp => h p ((hothers p).1 hp)) hincreasing fun template => ?_
    simp only [hunion, InUnion, hothers]
  · have hplaces : ∀ template, template ∈ templates ↔
        ∃ p ∈ patterns, ∃ es, Selects cwd t p es ∧ template = FileName.ofElements true es :=
      fun template => (hunion template).trans (inUnion_iff hcwd hroot ht h template)
    refine ⟨hplaces, nodup_elements hincreasing fun template htemplate => ?_,
      fun others hothers hmore hwithin => ?_⟩
    · obtain ⟨p, -, es, hselects, heq⟩ := (hplaces template).1 htemplate
      exact ⟨es, hselects.standsAt.proper, heq⟩
    · refine select_eq_of_union hothers hincreasing fun template => ?_
      rw [hplaces, inUnion_iff hcwd hroot ht hothers]
      constructor
      · rintro ⟨p, hp, hselects⟩
        exact ⟨p, hmore p hp, hselects⟩
      · rintro ⟨p, hp, es, hselects, heq⟩
        rcases hwithin p hp with hmem | ⟨wide, hwide, hcovers⟩
        · exact ⟨p, hmem, es, hselects, heq⟩
        · exact ⟨wide, hwide, es, hselects.of_covers hcovers, heq⟩

/-- A site with a page, a row below it, and a template of another module. -/
def siteSample : FileTree :=
  .directory [(utf8 "site", .directory
    [(utf8 "vendor", .directory [(utf8 "a.hbx", .file [])]),
     (utf8 "views", .directory
       [(utf8 "page.hbx", .file []), (utf8 "rows", .directory [(utf8 "row.hbx", .file [])])])])]

theorem selection_of_siteSample :
    let cwd := utf8 "/site"
    let page := utf8 "/site/views/page.hbx"
    let row := utf8 "/site/views/rows/row.hbx"
    ∃ templates, select cwd siteSample [utf8 "./...", utf8 "views"] = .ok templates ∧
      templates.Pairwise (List.Lex (· < ·)) ∧
      (∀ template, template ∈ templates ↔ template = page ∨ template = row) ∧
      select cwd siteSample [utf8 "../site/views/page.hbx", utf8 "views/rows/", utf8 "views",
        utf8 "./...", utf8 "views"] = .ok templates := by
  intro cwd page row
  have hwalk : expand cwd siteSample (utf8 "./...") = .ok [page, row] := by decide +kernel
  have hviews : expand cwd siteSample (utf8 "views") = .ok [page] := by decide +kernel
  have hpage : expand cwd siteSample (utf8 "../site/views/page.hbx") = .ok [page] := by
    decide +kernel
  have hrows : expand cwd siteSample (utf8 "views/rows/") = .ok [row] := by decide +kernel
  obtain ⟨templates, hselect, hincreasing, hunion, -, -, hproper⟩ :=
    selection_is_ordered_union cwd siteSample [utf8 "./...", utf8 "views"]
      (by simp [hwalk, hviews])
  obtain ⟨-, -, hwithin⟩ := hproper (by decide) rfl (by decide +kernel)
  have hdots : walkRoot? (Text.trim (utf8 "./...")) = some (utf8 ".") := by decide +kernel
  have hplain : walkRoot? (Text.trim (utf8 "views")) = none := by decide +kernel
  have hsite : place cwd (utf8 ".") = [utf8 "site"] := by decide +kernel
  have hfile : place cwd (target (utf8 "../site/views/page.hbx")) =
      [utf8 "site", utf8 "views", utf8 "page.hbx"] := by decide +kernel
  have hlisted : Covers cwd siteSample (utf8 "views") (utf8 "../site/views/page.hbx") :=
    .listed (by decide +kernel) hplain (by decide +kernel : _ = _ ++ [utf8 "page.hbx"])
      (by rw [hfile]; rfl)
  have hwalked : Covers cwd siteSample (utf8 "./...") (utf8 "views/rows/") := by
    refine .walked hdots (by rw [hsite]; rfl) (.into rfl ?_ (.into rfl ?_ (.here _)))
      (by decide +kernel : _ = _ ++ [utf8 "views", utf8 "rows"])
    · decide
    · decide
  refine ⟨templates, hselect, hincreasing, fun template => ?_, hwithin _ ?_ ?_ ?_⟩
  · rw [hunion]
    simp only [List.mem_cons, List.not_mem_nil, or_false, exists_eq_or_imp, exists_eq_left, hwalk,
      hviews, Except.ok.injEq, exists_eq_left']
    exact or_iff_left_of_imp .inl
  · simp [hwalk, hviews, hpage, hrows]
  · simp
  · simp [hlisted, hwalked]

end Command
end Stencil
