import Stencil.Command.Selection
import Stencil.Proofs.Fields
import Stencil.Proofs.File.Place

/-!
# What a pattern selects

In a file tree the entries of a directory have proper names, each entry its own.  A pattern stands
for a place in such a tree.  Without dots at its end it selects the template at that place and the
templates directly in it; with dots, all templates that a walk from there comes to.  A walk goes into
every directory but the hidden ones and those of other modules, and these are gone into only where
the walk begins.

Templates come into a selection as a file, out of a directory and out of a walk, and each time their
names are put together in another way.  The name is always the one that belongs to the place, so a
template that is selected twice has one name.

Results: `mem_walk_iff` for walks, `mem_expand_iff` for patterns, `stands_of_select` for all patterns
together, and `Selects.of_covers` for a pattern that lies within another one.
-/

namespace Stencil

/-! ## Proper trees -/

namespace FileTree

mutual

/-- Whether all entries of a tree have proper names, different ones in one directory. -/
def isProper : FileTree → Bool
  | file _ => true
  | directory entries => areProper entries

/-- Whether entries have proper names, different ones, and are proper trees. -/
def areProper : List (Bytes × FileTree) → Bool
  | [] => true
  | (n, t) :: rest =>
    decide (FileName.Proper n) && (rest.lookup n).isNone && isProper t && areProper rest

end

/-- Every entry is the one that its name stands for. -/
theorem lookup_of_areProper
    {entries : List (Bytes × FileTree)} {n : Bytes} {u : FileTree}
    (hentries : areProper entries = true)
    (hmem : (n, u) ∈ entries) :
    FileName.Proper n ∧ entries.lookup n = some u ∧ u.isProper = true := by
  induction entries with
  | nil =>
      cases hmem
  | cons first rest ih =>
      obtain ⟨m, v⟩ := first
      simp only [areProper, Bool.and_eq_true, decide_eq_true_eq, Option.isNone_iff_eq_none]
        at hentries
      obtain ⟨⟨⟨hm, hnew⟩, hv⟩, hrest⟩ := hentries
      rcases List.mem_cons.1 hmem with heq | hmem
      · obtain ⟨rfl, rfl⟩ := Prod.mk.inj heq
        exact ⟨hm, by simp, hv⟩
      · obtain ⟨hn, hlookup, hu⟩ := ih hrest hmem
        have hne : (n == m) = false := by
          refine beq_false_of_ne ?_
          rintro rfl
          rw [hnew] at hlookup
          cases hlookup
        exact ⟨hn, by rw [List.lookup_cons, hne, hlookup], hu⟩

/-- In a proper tree only proper elements lead anywhere, and what they lead to is a proper tree. -/
theorem proper_of_resolve
    {t u : FileTree} {es : List Bytes}
    (ht : t.isProper = true)
    (h : t.resolve es = .ok u) :
    (∀ e ∈ es, FileName.Proper e) ∧ u.isProper = true := by
  induction es generalizing t with
  | nil =>
      cases h
      exact ⟨fun e he => absurd he List.not_mem_nil, ht⟩
  | cons e rest ih =>
      cases t with
      | file content =>
          cases h
      | directory entries =>
          rw [isProper] at ht
          rw [resolve] at h
          cases hlookup : entries.lookup e with
          | none =>
              rw [hlookup] at h
              cases h
          | some v =>
              rw [hlookup] at h
              obtain ⟨he, -, hv⟩ := lookup_of_areProper ht (Fields.mem_of_lookup hlookup)
              obtain ⟨hrest, hu⟩ := ih hv h
              exact ⟨List.forall_mem_cons.2 ⟨he, hrest⟩, hu⟩

end FileTree

namespace Command

/-! ## Templates in a tree -/

/-- A template in a directory of a tree. -/
structure IsTemplateAt (t : FileTree) (es : List Bytes) (n : Bytes) : Prop where
  proper : ∀ e ∈ es ++ [n], FileName.Proper e
  named : isTemplate n = true
  isFile : ∃ source, t.resolve (es ++ [n]) = .ok (.file source)

/-- A name that stands for a template in a tree. -/
def Stands (t : FileTree) (template : Bytes) : Prop :=
  ∃ es n, template = FileName.ofElements true (es ++ [n]) ∧ IsTemplateAt t es n

/-- The ending is that of the last element. -/
theorem isTemplate_of_ofElements
    {es : List Bytes} {n : Bytes}
    (h : isTemplate (FileName.ofElements true (es ++ [n])) = true) :
    isTemplate n = true := by
  rw [isTemplate, Bytes.endsWith_iff_suffix, FileName.ofElements_concat] at h
  rw [isTemplate, Bytes.endsWith_iff_suffix]
  have hslash : Ascii.slash ∉ ending := by decide
  rcases List.suffix_or_suffix_of_suffix h (List.suffix_append _ _) with hending | hlong
  · rcases List.suffix_cons_iff.1 hending with heq | hending
    · exact absurd (heq ▸ List.mem_cons_self) hslash
    · exact hending
  · exact absurd (hlong.subset List.mem_cons_self) hslash

/-! ## Places -/

/-- The elements of the place that a name stands for, seen from a working directory. -/
def place (cwd name : Bytes) : List Bytes := FileName.elements (FileName.absolute cwd name)

theorem absolute_eq_place
    {cwd : Bytes}
    (hcwd : FileName.isAbsolute cwd = true)
    (name : Bytes) :
    FileName.absolute cwd name = FileName.ofElements true (place cwd name) ∧
      ∀ e ∈ place cwd name, FileName.Proper e := by
  obtain ⟨es, hes, heq⟩ := FileName.exists_absolute_eq hcwd name
  rw [place, heq, FileName.elements_ofElements hes]
  exact ⟨rfl, hes⟩

/-- A template stands at a place. -/
def StandsAt (t : FileTree) (es : List Bytes) : Prop :=
  ∃ front n, es = front ++ [n] ∧ IsTemplateAt t front n

theorem StandsAt.isFile
    {t : FileTree} {es : List Bytes}
    (h : StandsAt t es) :
    ∃ source, t.resolve es = .ok (.file source) := by
  obtain ⟨front, n, rfl, htemplate⟩ := h
  exact htemplate.isFile

theorem StandsAt.proper
    {t : FileTree} {es : List Bytes}
    (h : StandsAt t es) :
    ∀ e ∈ es, FileName.Proper e := by
  obtain ⟨front, n, rfl, htemplate⟩ := h
  exact htemplate.proper

theorem isTemplate_ofElements_concat
    (es : List Bytes) (n : Bytes) :
    isTemplate (FileName.ofElements true (es ++ [n])) = isTemplate n := by
  rw [Bool.eq_iff_iff]
  refine ⟨isTemplate_of_ofElements, fun h => ?_⟩
  rw [isTemplate, Bytes.endsWith_iff_suffix] at h ⊢
  rw [FileName.ofElements_concat]
  exact h.trans ((List.suffix_cons _ n).trans (List.suffix_append _ _))

theorem standsAt_iff
    {t : FileTree} {es : List Bytes}
    (hroot : t.isDirectory = true)
    (hes : ∀ e ∈ es, FileName.Proper e) :
    StandsAt t es ↔ (∃ source, t.resolve es = .ok (.file source)) ∧
      isTemplate (FileName.ofElements true es) = true := by
  constructor
  · rintro ⟨front, n, rfl, htemplate⟩
    exact ⟨htemplate.isFile, (isTemplate_ofElements_concat front n).trans htemplate.named⟩
  · rintro ⟨⟨source, hfile⟩, hname⟩
    rcases List.eq_nil_or_concat es with rfl | ⟨front, n, rfl⟩
    · cases hfile
      cases hroot
    · rw [List.concat_eq_append] at *
      exact ⟨front, n, rfl, hes, isTemplate_of_ofElements hname, source, hfile⟩

/-! ## Walks -/

/-- The places below a tree that a walk through it comes to: no directory on the way is left out. -/
inductive Comes : FileTree → List Bytes → Prop
  | here (t : FileTree) : Comes t []
  | into {entries : List (Bytes × FileTree)} {n : Bytes} {u : FileTree} {rest : List Bytes}
      (entry : entries.lookup n = some u)
      (kept : u.isDirectory = true → isSkipped n = false)
      (inner : Comes u rest) :
      Comes (.directory entries) (n :: rest)

/-- A walk goes on where another one comes to. -/
theorem Comes.append
    {t u : FileTree} {es fs : List Bytes}
    (h : Comes t es)
    (hu : t.resolve es = .ok u)
    (hrest : Comes u fs) :
    Comes t (es ++ fs) := by
  induction h with
  | here t =>
      cases hu
      exact hrest
  | into entry kept inner ih =>
      rw [FileTree.resolve, entry] at hu
      exact .into entry kept (ih hu)

/-- What a walk through a tree finds below a place. -/
structure Found (u : FileTree) (es below : List Bytes) : Prop where
  comes : Comes u below
  isFile : ∃ source, u.resolve below = .ok (.file source)
  named : isTemplate (FileName.ofElements true (es ++ below)) = true

theorem found_file_iff
    {source : Bytes} {es below : List Bytes} :
    Found (.file source) es below ↔
      below = [] ∧ isTemplate (FileName.ofElements true es) = true := by
  constructor
  · rintro ⟨hcomes, -, hnamed⟩
    cases hcomes
    rw [List.append_nil] at hnamed
    exact ⟨rfl, hnamed⟩
  · rintro ⟨rfl, hnamed⟩
    exact ⟨.here _, ⟨source, rfl⟩, by rwa [List.append_nil]⟩

/-- What is found below a directory is found below one of its entries that is not left out. -/
theorem found_directory_iff
    {entries : List (Bytes × FileTree)} {es below : List Bytes}
    (hentries : FileTree.areProper entries = true) :
    Found (.directory entries) es below ↔
      ∃ n u rest, (n, u) ∈ entries ∧ (u.isDirectory = true → isSkipped n = false) ∧
        Found u (es ++ [n]) rest ∧ below = n :: rest := by
  constructor
  · rintro ⟨hcomes, ⟨source, hfile⟩, hnamed⟩
    cases hcomes with
    | here =>
        cases hfile
    | into entry kept inner =>
        rw [FileTree.resolve, entry] at hfile
        refine ⟨_, _, _, Fields.mem_of_lookup entry, kept, ⟨inner, ⟨source, hfile⟩, ?_⟩, rfl⟩
        rwa [List.append_assoc]
  · rintro ⟨n, u, rest, hmem, hkept, ⟨hcomes, ⟨source, hfile⟩, hnamed⟩, rfl⟩
    obtain ⟨-, hlookup, -⟩ := FileTree.lookup_of_areProper hentries hmem
    refine ⟨.into hlookup hkept hcomes, ⟨source, ?_⟩, ?_⟩
    · rw [FileTree.resolve, hlookup]
      exact hfile
    · rwa [List.append_assoc] at hnamed

theorem mem_walkAll_iff
    {entries : List (Bytes × FileTree)} {es : List Bytes} {template : Bytes}
    (hes : ∀ e ∈ es, FileName.Proper e)
    (hentries : FileTree.areProper entries = true) :
    template ∈ walkAll (FileName.ofElements true es) entries ↔
      ∃ n u, (n, u) ∈ entries ∧ (u.isDirectory = true → isSkipped n = false) ∧
        template ∈ walk (FileName.ofElements true (es ++ [n])) u := by
  induction entries with
  | nil =>
      simp [walkAll]
  | cons first rest ih =>
      obtain ⟨m, v⟩ := first
      have hm := (FileTree.lookup_of_areProper hentries List.mem_cons_self).1
      simp only [FileTree.areProper, Bool.and_eq_true] at hentries
      have hkept : (v.isDirectory && isSkipped m) = true ↔
          ¬ (v.isDirectory = true → isSkipped m = false) := by
        rw [Bool.and_eq_true, Classical.not_imp, Bool.not_eq_false]
      rw [walkAll, List.mem_append, FileName.join_ofElements hes hm, ih hentries.2]
      constructor
      · rintro (hfirst | ⟨n, u, hmem, hrest⟩)
        · split at hfirst
          · cases hfirst
          · next hopen =>
              exact ⟨m, v, List.mem_cons_self, Classical.not_not.1 (mt hkept.2 hopen), hfirst⟩
        · exact ⟨n, u, List.mem_cons_of_mem _ hmem, hrest⟩
      · rintro ⟨n, u, hmem, hopen, htemplate⟩
        rcases List.mem_cons.1 hmem with heq | hmem
        · obtain ⟨rfl, rfl⟩ := Prod.mk.inj heq
          rw [if_neg (fun hskip => hkept.1 hskip hopen)]
          exact .inl htemplate
        · exact .inr ⟨n, u, hmem, hopen, htemplate⟩

theorem proper_concat
    {es : List Bytes} {n : Bytes}
    (hes : ∀ e ∈ es, FileName.Proper e)
    (hn : FileName.Proper n) :
    ∀ e ∈ es ++ [n], FileName.Proper e := by
  intro e he
  rcases List.mem_append.1 he with he | he
  · exact hes e he
  · exact List.mem_singleton.1 he ▸ hn

mutual

/-- A walk lists the templates that it comes to, under the names of their places. -/
theorem mem_walk_iff :
    ∀ (u : FileTree) (es : List Bytes) (template : Bytes), (∀ e ∈ es, FileName.Proper e) →
      u.isProper = true → (template ∈ walk (FileName.ofElements true es) u ↔
        ∃ below, Found u es below ∧ template = FileName.ofElements true (es ++ below))
  | .file source, es, template, _, _ => by
      simp only [walk, found_file_iff]
      constructor
      · intro h
        split at h
        · next hname =>
            exact ⟨[], ⟨rfl, hname⟩, by rwa [List.append_nil, ← List.mem_singleton]⟩
        · cases h
      · rintro ⟨_, ⟨rfl, hname⟩, rfl⟩
        rw [if_pos hname, List.append_nil]
        exact List.mem_singleton_self _
  | .directory entries, es, template, hes, hproper => by
      rw [FileTree.isProper] at hproper
      rw [walk, mem_walkAll_iff hes hproper]
      simp only [found_directory_iff hproper]
      constructor
      · rintro ⟨n, u, hmem, hopen, htemplate⟩
        obtain ⟨below, hfound, heq⟩ :=
          (mem_walk_entry_iff entries es template hes hproper n u hmem).1 htemplate
        refine ⟨n :: below, ⟨n, u, below, hmem, hopen, hfound, rfl⟩, ?_⟩
        rw [heq, List.append_assoc]
        rfl
      · rintro ⟨_, ⟨n, u, below, hmem, hopen, hfound, rfl⟩, rfl⟩
        refine ⟨n, u, hmem, hopen, ?_⟩
        refine (mem_walk_entry_iff entries es _ hes hproper n u hmem).2 ⟨below, hfound, ?_⟩
        rw [List.append_assoc]
        rfl

theorem mem_walk_entry_iff :
    ∀ (entries : List (Bytes × FileTree)) (es : List Bytes) (template : Bytes),
      (∀ e ∈ es, FileName.Proper e) → FileTree.areProper entries = true →
      ∀ n u, (n, u) ∈ entries → (template ∈ walk (FileName.ofElements true (es ++ [n])) u ↔
        ∃ below, Found u (es ++ [n]) below ∧
          template = FileName.ofElements true (es ++ [n] ++ below))
  | [], _, _, _, _, _, _, hmem => by cases hmem
  | (m, v) :: rest, es, template, hes, hproper, n, u, hmem => by
      have hm := (FileTree.lookup_of_areProper hproper List.mem_cons_self).1
      simp only [FileTree.areProper, Bool.and_eq_true] at hproper
      rcases List.mem_cons.1 hmem with heq | hmem
      · rw [(Prod.mk.inj heq).1, (Prod.mk.inj heq).2]
        exact mem_walk_iff v (es ++ [m]) template (proper_concat hes hm) hproper.1.2
      · exact mem_walk_entry_iff rest es template hes hproper.2 n u hmem

end

/-! ## Patterns -/

/-- The places that a pattern selects: its own, those directly in it, or those that a walk from it
comes to, where a template stands. -/
inductive Selects (cwd : Bytes) (t : FileTree) (pattern : Bytes) : List Bytes → Prop
  | file
      (named : Text.trim pattern ≠ [])
      (plain : walkRoot? (Text.trim pattern) = none)
      (template : StandsAt t (place cwd (Text.trim pattern))) :
      Selects cwd t pattern (place cwd (Text.trim pattern))
  | inside {n : Bytes}
      (named : Text.trim pattern ≠ [])
      (plain : walkRoot? (Text.trim pattern) = none)
      (template : StandsAt t (place cwd (Text.trim pattern) ++ [n])) :
      Selects cwd t pattern (place cwd (Text.trim pattern) ++ [n])
  | below {base : Bytes} {u : FileTree} {es : List Bytes}
      (dots : walkRoot? (Text.trim pattern) = some base)
      (start : t.resolve (place cwd base) = .ok u)
      (comes : Comes u es)
      (template : StandsAt t (place cwd base ++ es)) :
      Selects cwd t pattern (place cwd base ++ es)

theorem Selects.standsAt
    {cwd : Bytes} {t : FileTree} {pattern : Bytes} {es : List Bytes}
    (h : Selects cwd t pattern es) :
    StandsAt t es := by
  cases h with
  | file _ _ template => exact template
  | inside _ _ template => exact template
  | below _ _ _ template => exact template

/-- What a pattern is expanded to, in each of the ways in which it can be. -/
inductive Expanded (cwd : Bytes) (t : FileTree) (pattern : Bytes) : List Bytes → Prop
  | blank
      (empty : Text.trim pattern = []) :
      Expanded cwd t pattern []
  | walked {base : Bytes} {u : FileTree}
      (dots : walkRoot? (Text.trim pattern) = some base)
      (there : t.get .lstat [] (FileName.absolute cwd base) = .ok u) :
      Expanded cwd t pattern (walk (FileName.absolute cwd base) u)
  | listed {entries : List (Bytes × FileTree)}
      (named : Text.trim pattern ≠ [])
      (plain : walkRoot? (Text.trim pattern) = none)
      (there : t.get .stat [] (FileName.absolute cwd (Text.trim pattern)) =
        .ok (.directory entries)) :
      Expanded cwd t pattern (templatesAmong (FileName.absolute cwd (Text.trim pattern)) entries)
  | single {source : Bytes}
      (named : Text.trim pattern ≠ [])
      (plain : walkRoot? (Text.trim pattern) = none)
      (there : t.get .stat [] (FileName.absolute cwd (Text.trim pattern)) = .ok (.file source))
      (template : isTemplate (FileName.absolute cwd (Text.trim pattern)) = true) :
      Expanded cwd t pattern [FileName.absolute cwd (Text.trim pattern)]

section Expansion

variable {cwd : Bytes} {t : FileTree} {pattern : Bytes}

theorem expanded_of_expand
    {selected : List Bytes}
    (h : expand cwd t pattern = .ok selected) :
    Expanded cwd t pattern selected := by
  unfold expand at h
  simp only at h
  split at h
  · next hblank =>
      cases h
      exact .blank (List.isEmpty_iff.1 hblank)
  · next hnamed =>
      have hnamed := fun hempty => hnamed (List.isEmpty_iff.2 hempty)
      split at h
      · next hdots =>
          split at h
          · next hget =>
              cases h
              exact .walked hdots hget
          · cases h
      · next hplain =>
          split at h
          · next hget =>
              cases h
              exact .listed hnamed hplain hget
          · next hget =>
              split at h
              · next htemplate =>
                  cases h
                  exact .single hnamed hplain hget htemplate
              · cases h
          · cases h

/-- What is got at the place of a name stands there. -/
theorem resolve_of_get
    {name : Bytes} {action : FileAction} {u : FileTree}
    (hcwd : FileName.isAbsolute cwd = true)
    (hroot : t.isDirectory = true)
    (h : t.get action [] (FileName.absolute cwd name) = .ok u) :
    t.resolve (place cwd name) = .ok u := by
  obtain ⟨heq, hproper⟩ := absolute_eq_place hcwd name
  rwa [FileTree.get, mapError_eq_ok_iff, heq, FileTree.find_ofElements hroot hproper] at h

theorem mem_templatesAmong_iff
    {entries : List (Bytes × FileTree)} {es : List Bytes} {template : Bytes}
    (hes : ∀ e ∈ es, FileName.Proper e)
    (hentries : FileTree.areProper entries = true)
    (h : t.resolve es = .ok (.directory entries)) :
    template ∈ templatesAmong (FileName.ofElements true es) entries ↔
      ∃ n, StandsAt t (es ++ [n]) ∧ template = FileName.ofElements true (es ++ [n]) := by
  constructor
  · intro htemplate
    obtain ⟨⟨n, u⟩, hentry, rfl⟩ := List.mem_map.1 htemplate
    obtain ⟨hmem, hwanted⟩ := List.mem_filter.1 hentry
    obtain ⟨hfile, hn⟩ := Bool.and_eq_true_iff.1 hwanted
    obtain ⟨hproper, hlookup, -⟩ := FileTree.lookup_of_areProper hentries hmem
    cases u with
    | file source =>
        have hu : t.resolve (es ++ [n]) = .ok (.file source) := by
          rw [FileTree.resolve_concat h, hlookup]
        exact ⟨n, ⟨es, n, rfl, proper_concat hes hproper, hn, source, hu⟩,
          FileName.join_ofElements hes hproper⟩
    | directory inner =>
        cases hfile
  · rintro ⟨n, ⟨front, m, heq, htemplate⟩, rfl⟩
    obtain ⟨rfl, rfl⟩ := List.append_singleton_inj.1 heq
    obtain ⟨source, hfile⟩ := htemplate.isFile
    rw [FileTree.resolve_concat h] at hfile
    cases hlookup : entries.lookup n with
    | none =>
        rw [hlookup] at hfile
        cases hfile
    | some u =>
        rw [hlookup] at hfile
        obtain rfl : u = .file source := Except.ok.inj hfile
        have hn := htemplate.proper n (by simp)
        refine List.mem_map.2 ⟨(n, .file source),
          List.mem_filter.2 ⟨Fields.mem_of_lookup hlookup, ?_⟩, FileName.join_ofElements hes hn⟩
        exact Bool.and_eq_true_iff.2 ⟨rfl, htemplate.named⟩

/-- A walk from the place of a pattern lists what the pattern selects. -/
theorem mem_walk_place_iff
    {base : Bytes} {u : FileTree} {template : Bytes}
    (hcwd : FileName.isAbsolute cwd = true)
    (hroot : t.isDirectory = true)
    (ht : t.isProper = true)
    (hdots : walkRoot? (Text.trim pattern) = some base)
    (hu : t.resolve (place cwd base) = .ok u) :
    template ∈ walk (FileName.ofElements true (place cwd base)) u ↔
      ∃ es, Selects cwd t pattern es ∧ template = FileName.ofElements true es := by
  have hplace := (absolute_eq_place hcwd base).2
  have hbelow : ∀ below, t.resolve (place cwd base ++ below) = u.resolve below := by
    intro below
    rw [FileTree.resolve_append, hu, ok_bind]
  rw [mem_walk_iff u _ template hplace (FileTree.proper_of_resolve ht hu).2]
  constructor
  · rintro ⟨below, ⟨hcomes, ⟨source, hfile⟩, hnamed⟩, rfl⟩
    have hfile' := (hbelow below).trans hfile
    have hproper := (FileTree.proper_of_resolve ht hfile').1
    have hstands := (standsAt_iff hroot hproper).2 ⟨⟨source, hfile'⟩, hnamed⟩
    exact ⟨_, .below hdots hu hcomes hstands, rfl⟩
  · rintro ⟨es, hselects, rfl⟩
    cases hselects with
    | file _ plain _ | inside _ plain _ =>
        rw [hdots] at plain
        cases plain
    | below dots start comes template =>
        rw [hdots] at dots
        cases dots
        rw [hu] at start
        cases start
        obtain ⟨⟨source, hfile⟩, hnamed⟩ := (standsAt_iff hroot template.proper).1 template
        exact ⟨_, ⟨comes, ⟨source, (hbelow _).symm.trans hfile⟩, hnamed⟩, rfl⟩

theorem file_or_inside
    {es : List Bytes}
    (hplain : walkRoot? (Text.trim pattern) = none)
    (h : Selects cwd t pattern es) :
    Text.trim pattern ≠ [] ∧ StandsAt t es ∧
      (es = place cwd (Text.trim pattern) ∨ ∃ n, es = place cwd (Text.trim pattern) ++ [n]) := by
  cases h with
  | file named _ template =>
      exact ⟨named, template, .inl rfl⟩
  | inside named _ template =>
      exact ⟨named, template, .inr ⟨_, rfl⟩⟩
  | below dots _ _ _ =>
      rw [hplain] at dots
      cases dots

/-- A pattern lists the templates at the places that it selects, under the names of these places. -/
theorem mem_expand_iff
    {selected : List Bytes}
    (hcwd : FileName.isAbsolute cwd = true)
    (hroot : t.isDirectory = true)
    (ht : t.isProper = true)
    (h : expand cwd t pattern = .ok selected)
    (template : Bytes) :
    template ∈ selected ↔
      ∃ es, Selects cwd t pattern es ∧ template = FileName.ofElements true es := by
  cases expanded_of_expand h with
  | blank empty =>
      have hplain : walkRoot? (Text.trim pattern) = none := by
        rw [empty]
        rfl
      refine ⟨fun hmem => absurd hmem List.not_mem_nil, ?_⟩
      rintro ⟨es, hselects, -⟩
      exact absurd empty (file_or_inside hplain hselects).1
  | @walked base u dots there =>
      rw [(absolute_eq_place hcwd base).1]
      exact mem_walk_place_iff hcwd hroot ht dots (resolve_of_get hcwd hroot there)
  | @listed entries named plain there =>
      obtain ⟨hname, hproper⟩ := absolute_eq_place hcwd (Text.trim pattern)
      have hu := resolve_of_get hcwd hroot there
      have hentries := (FileTree.proper_of_resolve ht hu).2
      rw [FileTree.isProper] at hentries
      rw [hname, mem_templatesAmong_iff hproper hentries hu]
      constructor
      · rintro ⟨n, hstands, rfl⟩
        exact ⟨_, .inside named plain hstands, rfl⟩
      · rintro ⟨es, hselects, rfl⟩
        obtain ⟨-, hstands, rfl | ⟨n, rfl⟩⟩ := file_or_inside plain hselects
        · obtain ⟨source, hfile⟩ := hstands.isFile
          rw [hu] at hfile
          cases hfile
        · exact ⟨n, hstands, rfl⟩
  | @single source named plain there template =>
      obtain ⟨hname, hproper⟩ := absolute_eq_place hcwd (Text.trim pattern)
      have hu := resolve_of_get hcwd hroot there
      rw [hname] at template ⊢
      rw [List.mem_singleton]
      constructor
      · rintro rfl
        exact ⟨_, .file named plain ((standsAt_iff hroot hproper).2 ⟨⟨source, hu⟩, template⟩), rfl⟩
      · rintro ⟨es, hselects, rfl⟩
        obtain ⟨-, hstands, rfl | ⟨n, rfl⟩⟩ := file_or_inside plain hselects
        · rfl
        · obtain ⟨source', hfile⟩ := hstands.isFile
          obtain ⟨entries, hdirectory⟩ := FileTree.directory_of_resolve_concat hfile
          rw [hu] at hdirectory
          cases hdirectory

/-- Whatever patterns select is a template that stands in the tree. -/
theorem stands_of_select
    {patterns templates : List Bytes}
    (hcwd : FileName.isAbsolute cwd = true)
    (hroot : t.isDirectory = true)
    (ht : t.isProper = true)
    (h : select cwd t patterns = .ok templates) :
    ∀ template ∈ templates, Stands t template := by
  obtain ⟨groups, hgroups, hsorted⟩ := bind_eq_ok_iff.1 h
  cases hsorted
  intro template htemplate
  rw [List.mem_mergeSort, List.mem_eraseDups, List.mem_flatten] at htemplate
  obtain ⟨selected, hselected, hmem⟩ := htemplate
  obtain ⟨p, -, hexpand⟩ := (mem_mapM_iff hgroups selected).1 hselected
  obtain ⟨es, hselects, rfl⟩ := (mem_expand_iff hcwd hroot ht hexpand template).1 hmem
  obtain ⟨front, n, rfl, hstands⟩ := hselects.standsAt
  exact ⟨front, n, rfl, hstands⟩

/-! ## Overlapping patterns -/

/-- The name of the place that a pattern stands for. -/
def target (pattern : Bytes) : Bytes := (walkRoot? (Text.trim pattern)).getD (Text.trim pattern)

theorem target_of_plain
    (h : walkRoot? (Text.trim pattern) = none) :
    target pattern = Text.trim pattern := by
  rw [target, h]
  rfl

theorem target_of_dots
    {base : Bytes}
    (h : walkRoot? (Text.trim pattern) = some base) :
    target pattern = base := by
  rw [target, h]
  rfl

/-- A pattern lies within another one: the walk of the other one comes to its place, or it is a file
in the directory of the other one. -/
inductive Covers (cwd : Bytes) (t : FileTree) (wide narrow : Bytes) : Prop
  | walked {base : Bytes} {u : FileTree} {below : List Bytes}
      (dots : walkRoot? (Text.trim wide) = some base)
      (start : t.resolve (place cwd base) = .ok u)
      (comes : Comes u below)
      (inside : place cwd (target narrow) = place cwd base ++ below)
  | listed {n source : Bytes}
      (named : Text.trim wide ≠ [])
      (plain : walkRoot? (Text.trim wide) = none)
      (inside : place cwd (target narrow) = place cwd (Text.trim wide) ++ [n])
      (isFile : t.resolve (place cwd (target narrow)) = .ok (.file source))

/-- A file in a directory is never left out. -/
theorem comes_file
    {u : FileTree} {n source : Bytes}
    (h : u.resolve [n] = .ok (.file source)) :
    Comes u [n] := by
  cases u with
  | file content =>
      cases h
  | directory entries =>
      rw [FileTree.resolve] at h
      cases hlookup : entries.lookup n with
      | none =>
          rw [hlookup] at h
          cases h
      | some v =>
          rw [hlookup] at h
          obtain rfl : v = .file source := Except.ok.inj h
          exact .into hlookup (fun hdirectory => absurd hdirectory Bool.false_ne_true) (.here _)

/-- What a pattern selects stands at its place, directly in it, or where a walk from it comes to. -/
theorem Selects.exists_below
    {es : List Bytes}
    (h : Selects cwd t pattern es) :
    ∃ u rest, t.resolve (place cwd (target pattern)) = .ok u ∧ Comes u rest ∧
      es = place cwd (target pattern) ++ rest := by
  cases h with
  | file _ plain template =>
      obtain ⟨source, hfile⟩ := template.isFile
      rw [target_of_plain plain]
      exact ⟨_, [], hfile, .here _, (List.append_nil _).symm⟩
  | inside _ plain template =>
      obtain ⟨source, hfile⟩ := template.isFile
      rw [FileTree.resolve_append, bind_eq_ok_iff] at hfile
      obtain ⟨u, hu, hfile⟩ := hfile
      rw [target_of_plain plain]
      exact ⟨u, _, hu, comes_file hfile, rfl⟩
  | below dots start comes _ =>
      rw [target_of_dots dots]
      exact ⟨_, _, start, comes, rfl⟩

/-- A pattern selects nothing that a pattern around it does not select. -/
theorem Selects.of_covers
    {wide narrow : Bytes} {es : List Bytes}
    (hcovers : Covers cwd t wide narrow)
    (h : Selects cwd t narrow es) :
    Selects cwd t wide es := by
  have hstands := h.standsAt
  obtain ⟨v, rest, hv, hrest, rfl⟩ := h.exists_below
  cases hcovers with
  | @walked base u below dots start comes inside =>
      rw [inside] at hv hstands ⊢
      rw [FileTree.resolve_append, start, ok_bind] at hv
      rw [List.append_assoc] at hstands ⊢
      exact .below dots start (comes.append hv hrest) hstands
  | listed named plain inside isFile =>
      rw [isFile] at hv
      cases hv
      cases hrest
      rw [inside, List.append_nil] at hstands ⊢
      exact .inside named plain hstands

end Expansion

end Command
end Stencil
