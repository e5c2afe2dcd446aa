import Stencil.File.Name
import Stencil.Proofs.Chunk

/-!
# Places in a file tree

A clean absolute name and the list of its elements determine each other.  The elements are proper:
not empty, without slashes, and neither `.` nor `..`.

Results: `FileName.elements_ofElements` and `FileName.proper_elements` for the correspondence,
`FileName.join_ofElements` and `FileName.dir_ofElements` for going down and up by one element.
-/

namespace Stencil

/-! ## Pieces between separators -/

namespace Bytes

theorem splitOn_of_notMem
    {sep : UInt8} {s : Bytes}
    (h : sep ∉ s) :
    splitOn sep s = [s] := by
  induction s with
  | nil =>
      rfl
  | cons b s ih =>
      obtain ⟨hb, hs⟩ := not_or.1 (mt List.mem_cons.2 h)
      rw [splitOn, if_neg (Ne.symm hb), ih hs]

theorem splitOn_append
    (sep : UInt8) (s t : Bytes) :
    splitOn sep (s ++ sep :: t) = splitOn sep s ++ splitOn sep t := by
  induction s with
  | nil =>
      simp [splitOn]
  | cons b s ih =>
      rw [List.cons_append, splitOn, ih, splitOn]
      by_cases hb : b = sep
      · rw [if_pos hb, if_pos hb, List.cons_append]
      · rw [if_neg hb, if_neg hb]
        cases hpieces : splitOn sep s with
        | nil =>
            exact absurd hpieces (splitOn_ne_nil sep s)
        | cons piece pieces =>
            rfl

theorem notMem_of_mem_splitOn
    {sep : UInt8} {s piece : Bytes}
    (h : piece ∈ splitOn sep s) :
    sep ∉ piece := by
  induction s generalizing piece with
  | nil =>
      obtain rfl := List.mem_singleton.1 h
      exact List.not_mem_nil
  | cons b s ih =>
      rw [splitOn] at h
      split at h
      · rcases List.mem_cons.1 h with rfl | hrest
        · exact List.not_mem_nil
        · exact ih hrest
      · next hb =>
          cases hpieces : splitOn sep s with
          | nil =>
              exact absurd hpieces (splitOn_ne_nil sep s)
          | cons first pieces =>
              rw [hpieces] at h ih
              rcases List.mem_cons.1 h with rfl | hrest
              · intro hmem
                rcases List.mem_cons.1 hmem with hsep | hmem
                · exact hb hsep.symm
                · exact ih List.mem_cons_self hmem
              · exact ih (List.mem_cons_of_mem first hrest)

end Bytes

namespace FileName

/-! ## Elements -/

/-- An element that names something inside of a directory. -/
structure Proper (e : Bytes) : Prop where
  notEmpty : e ≠ []
  noSlash : Ascii.slash ∉ e
  notHere : e ≠ here
  notAbove : e ≠ above

instance (e : Bytes) : Decidable (Proper e) :=
  decidable_of_iff (e ≠ [] ∧ Ascii.slash ∉ e ∧ e ≠ here ∧ e ≠ above)
    ⟨fun ⟨h₁, h₂, h₃, h₄⟩ => ⟨h₁, h₂, h₃, h₄⟩, fun ⟨h₁, h₂, h₃, h₄⟩ => ⟨h₁, h₂, h₃, h₄⟩⟩

theorem step_of_proper
    {e : Bytes}
    (he : Proper e)
    (absolute : Bool) (done : List Bytes) :
    step absolute done e = e :: done := by
  have hempty : e.isEmpty = false := List.isEmpty_eq_false_iff.2 he.notEmpty
  simp [step, hempty, he.notHere, he.notAbove]

theorem foldl_step_of_proper
    {es : List Bytes}
    (hes : ∀ e ∈ es, Proper e)
    (absolute : Bool) (done : List Bytes) :
    es.foldl (step absolute) done = es.reverse ++ done := by
  induction es generalizing done with
  | nil =>
      rfl
  | cons e rest ih =>
      obtain ⟨he, hrest⟩ := List.forall_mem_cons.1 hes
      rw [List.foldl_cons, step_of_proper he, ih hrest, List.reverse_cons, List.append_assoc]
      rfl

/-- From the root on nothing climbs out, so all elements that are left over are proper. -/
theorem proper_step
    {done : List Bytes} {e : Bytes}
    (hdone : ∀ d ∈ done, Proper d)
    (he : Ascii.slash ∉ e) :
    ∀ d ∈ step true done e, Proper d := by
  unfold step
  split
  · exact hdone
  · next hcounts =>
      obtain ⟨hempty, hhere⟩ := not_or.1 hcounts
      split
      · cases done with
        | nil =>
            exact hdone
        | cons last rest =>
            obtain ⟨hlast, hrest⟩ := List.forall_mem_cons.1 hdone
            simp only [if_neg hlast.notAbove]
            exact hrest
      · next habove =>
          exact List.forall_mem_cons.2 ⟨⟨by simpa using hempty, he, hhere, habove⟩, hdone⟩

theorem proper_elements
    {name : Bytes}
    (h : isAbsolute name = true) :
    ∀ e ∈ elements name, Proper e := by
  have hpieces : ∀ piece ∈ Bytes.splitOn Ascii.slash name, Ascii.slash ∉ piece :=
    fun piece => Bytes.notMem_of_mem_splitOn
  have hfold : ∀ (pieces done : List Bytes), (∀ piece ∈ pieces, Ascii.slash ∉ piece) →
      (∀ d ∈ done, Proper d) → ∀ d ∈ pieces.foldl (step true) done, Proper d := by
    intro pieces
    induction pieces with
    | nil =>
        exact fun _ _ hdone => hdone
    | cons piece rest ih =>
        intro done hslash hdone
        obtain ⟨hpiece, hrest⟩ := List.forall_mem_cons.1 hslash
        exact ih _ hrest (proper_step hdone hpiece)
  intro e he
  rw [elements, h] at he
  exact hfold _ [] hpieces (fun d hd => absurd hd List.not_mem_nil) e (List.mem_reverse.1 he)

/-! ## Names of places -/

/-- Elements with a slash in front of each. -/
def trail (es : List Bytes) : Bytes := es.flatMap fun e => Ascii.slash :: e

theorem trail_concat
    (es : List Bytes) (e : Bytes) :
    trail (es ++ [e]) = trail es ++ Ascii.slash :: e := by
  simp [trail]

theorem ofElements_eq_trail
    {es : List Bytes}
    (h : es ≠ []) :
    ofElements true es = trail es := by
  have hjoin : ∀ (e : Bytes) (rest : List Bytes),
      Bytes.join [Ascii.slash] (e :: rest) = e ++ trail rest := by
    intro e rest
    induction rest generalizing e with
    | nil =>
        simp [Bytes.join, trail]
    | cons f rest ih =>
        rw [Bytes.join, ih]
        simp [trail]
  cases es with
  | nil =>
      exact absurd rfl h
  | cons e rest =>
      rw [ofElements, if_pos rfl, hjoin]
      rfl

theorem ofElements_concat
    (es : List Bytes) (e : Bytes) :
    ofElements true (es ++ [e]) = trail es ++ Ascii.slash :: e := by
  rw [ofElements_eq_trail (by simp), trail_concat]

theorem splitOn_trail
    {es : List Bytes}
    (hes : ∀ e ∈ es, Proper e) :
    Bytes.splitOn Ascii.slash (trail es) = [] :: es := by
  have hrest : ∀ (es : List Bytes) (e : Bytes), Ascii.slash ∉ e → (∀ e ∈ es, Proper e) →
      Bytes.splitOn Ascii.slash (e ++ trail es) = e :: es := by
    intro es
    induction es with
    | nil =>
        intro e he _
        rw [trail, List.flatMap_nil, List.append_nil, Bytes.splitOn_of_notMem he]
    | cons f rest ih =>
        intro e he hes
        obtain ⟨hf, hrest⟩ := List.forall_mem_cons.1 hes
        rw [trail, List.flatMap_cons, List.cons_append, Bytes.splitOn_append,
          Bytes.splitOn_of_notMem he, List.singleton_append]
        exact congrArg _ (ih f hf.noSlash hrest)
  exact hrest es [] List.not_mem_nil hes

theorem isAbsolute_ofElements
    (es : List Bytes) :
    isAbsolute (ofElements true es) = true := by
  simp [isAbsolute, ofElements]

/-- The pieces of a place: an empty one in front of the root, and for the root itself one more. -/
theorem splitOn_ofElements
    {es : List Bytes}
    (hes : ∀ e ∈ es, Proper e) :
    Bytes.splitOn Ascii.slash (ofElements true es) = [] :: if es = [] then [[]] else es := by
  by_cases h : es = []
  · subst h
    rfl
  · rw [ofElements_eq_trail h, splitOn_trail hes, if_neg h]

theorem elements_ofElements
    {es : List Bytes}
    (hes : ∀ e ∈ es, Proper e) :
    elements (ofElements true es) = es := by
  by_cases h : es = []
  · subst h
    rfl
  · have hempty : step true [] [] = [] := rfl
    rw [elements, isAbsolute_ofElements, splitOn_ofElements hes, if_neg h, List.foldl_cons, hempty,
      foldl_step_of_proper hes, List.append_nil, List.reverse_reverse]

theorem clean_of_isAbsolute
    {name : Bytes}
    (h : isAbsolute name = true) :
    clean name = ofElements true (elements name) := by
  rw [clean, h]

theorem isAbsolute_append
    {name : Bytes}
    (h : isAbsolute name = true)
    (more : Bytes) :
    isAbsolute (name ++ more) = true := by
  cases name with
  | nil =>
      cases h
  | cons b rest =>
      exact h

theorem elements_append
    {name : Bytes}
    (h : isAbsolute name = true)
    (more : Bytes) :
    elements (name ++ Ascii.slash :: more) =
      ((Bytes.splitOn Ascii.slash more).foldl (step true) (elements name).reverse).reverse := by
  rw [elements, isAbsolute_append h, Bytes.splitOn_append, List.foldl_append, elements, h,
    List.reverse_reverse]

/-- Something inside of a directory. -/
theorem join_ofElements
    {es : List Bytes} {e : Bytes}
    (hes : ∀ e ∈ es, Proper e)
    (he : Proper e) :
    join [ofElements true es, e] = ofElements true (es ++ [e]) := by
  have hempty : (ofElements true es).isEmpty = false := rfl
  have hjoin : join [ofElements true es, e] =
      clean (ofElements true es ++ Ascii.slash :: e) := by
    simp [join, hempty, List.isEmpty_eq_false_iff.2 he.notEmpty, Bytes.join]
  have habsolute := isAbsolute_ofElements es
  rw [hjoin, clean_of_isAbsolute (isAbsolute_append habsolute _), elements_append habsolute,
    Bytes.splitOn_of_notMem he.noSlash, List.foldl_cons, List.foldl_nil, step_of_proper he,
    elements_ofElements hes, List.reverse_cons, List.reverse_reverse]

/-- The directory that something lies in. -/
theorem dir_ofElements
    {es : List Bytes} {e : Bytes}
    (hes : ∀ e ∈ es, Proper e)
    (he : Proper e) :
    dir (ofElements true (es ++ [e])) = ofElements true es := by
  have hdrop : ((ofElements true (es ++ [e])).reverse.dropWhile (· != Ascii.slash)).reverse =
      trail es ++ [Ascii.slash] := by
    have hall : ∀ b ∈ e.reverse, (b != Ascii.slash) = true := by
      intro b hb
      refine bne_iff_ne.2 fun hslash => he.noSlash ?_
      exact hslash ▸ List.mem_reverse.1 hb
    rw [ofElements_concat, List.reverse_append, List.reverse_cons, List.append_assoc,
      List.dropWhile_append_of_pos hall]
    simp
  rw [dir, hdrop]
  by_cases h : es = []
  · subst h
    rfl
  · have habsolute := isAbsolute_ofElements es
    have hempty : Bytes.splitOn Ascii.slash [] = [[]] := rfl
    rw [← ofElements_eq_trail h, clean_of_isAbsolute (isAbsolute_append habsolute _),
      elements_append habsolute, hempty, elements_ofElements hes]
    have hstep : [[]].foldl (step true) es.reverse = es.reverse := rfl
    rw [hstep, List.reverse_reverse]

theorem ofElements_append
    (es : List Bytes) (e suffix : Bytes) :
    ofElements true (es ++ [e]) ++ suffix = ofElements true (es ++ [e ++ suffix]) := by
  rw [ofElements_concat, ofElements_concat, List.append_assoc, List.cons_append]

/-- Seen from an absolute directory every name stands for a place. -/
theorem exists_absolute_eq
    {cwd : Bytes}
    (hcwd : isAbsolute cwd = true)
    (name : Bytes) :
    ∃ es, (∀ e ∈ es, Proper e) ∧ absolute cwd name = ofElements true es := by
  have hclean : ∀ place, isAbsolute place = true →
      ∃ es, (∀ e ∈ es, Proper e) ∧ clean place = ofElements true es :=
    fun place h => ⟨elements place, proper_elements h, clean_of_isAbsolute h⟩
  have hempty : cwd.isEmpty = false := by
    cases cwd with
    | nil =>
        cases hcwd
    | cons b rest =>
        rfl
  unfold absolute
  split
  · next h =>
      exact hclean name h
  · cases name with
    | nil =>
        have hjoin : join [cwd, []] = clean cwd := by
          simp [join, hempty, Bytes.join]
        rw [hjoin]
        exact hclean cwd hcwd
    | cons b rest =>
        have hjoin : join [cwd, b :: rest] = clean (cwd ++ Ascii.slash :: b :: rest) := by
          simp [join, hempty, Bytes.join]
        rw [hjoin]
        exact hclean _ (isAbsolute_append hcwd _)

end FileName
end Stencil
