import Mathlib.Data.List.Forall2
import Stencil.Engine
import Stencil.Proofs.Checks
import Stencil.Proofs.Text.Utf8

/-!
# The names of functions

The function of a template is named after its file: the letters and digits of the file's name are
kept, the first one of each run in upper case, and a word is put in front where nothing is left or a
digit would come first.  So the name is an identifier.  It begins with a letter that is no lower-case
letter of ASCII, which all keywords begin with.

What this needs of upper-case forms is read off their table, run by run: the forms of a run lie in
one range of letters, or are letters one by one, unless the run lists no letters.

Results: `Text.toUpper_letter`, `Text.toUpper_digit` and `Text.toUpper_not_lower` for upper-case
forms, and `Identifier.ofFile_is_identifier`.
-/

namespace Stencil

/-! ## Ranges of code points -/

namespace CodeRange

/-- Whether all code points from one to another lie in one of the ranges. -/
def covers (ranges : CodeRange) (first last : Nat) : Bool :=
  ranges.any fun r => Nat.ble r.1 first && Nat.blt last (r.1 + r.2)

/-- Whether no code point from one to another lies in any of the ranges. -/
def avoids (ranges : CodeRange) (first last : Nat) : Bool :=
  ranges.all fun r => Nat.blt last r.1 || Nat.ble (r.1 + r.2) first

variable {ranges : CodeRange} {first last : Nat} {c : Char}

theorem member_of_covers
    (h : ranges.covers first last = true)
    (hfirst : first ≤ c.toNat)
    (hlast : c.toNat ≤ last) :
    ranges.member c = true := by
  obtain ⟨r, hr, hcovers⟩ := List.any_eq_true.1 h
  rw [Bool.and_eq_true, Nat.ble_eq, Nat.blt_eq] at hcovers
  refine List.any_eq_true.2 ⟨r, hr, Bool.and_eq_true_iff.2 ⟨?_, ?_⟩⟩
  · exact decide_eq_true (Nat.le_trans hcovers.1 hfirst)
  · exact decide_eq_true (Nat.lt_of_le_of_lt hlast hcovers.2)

theorem member_of_avoids
    (h : ranges.avoids first last = true)
    (hfirst : first ≤ c.toNat)
    (hlast : c.toNat ≤ last) :
    ranges.member c = false := by
  refine List.any_eq_false.2 fun r hr hmember => ?_
  have havoids := List.all_eq_true.1 h r hr
  rw [Bool.or_eq_true, Nat.blt_eq, Nat.ble_eq] at havoids
  rw [Bool.and_eq_true, decide_eq_true_eq, decide_eq_true_eq] at hmember
  omega

end CodeRange

namespace Text

/-! ## Upper case -/

namespace CaseRun

/-- The code points that a run lists. -/
def listed (r : CaseRun) : List Nat :=
  (List.range ((r.last - r.first) / r.step + 1)).map fun k => r.first + r.step * k

/-- The upper-case form of a code point that a run lists. -/
def form (r : CaseRun) (n : Nat) : Nat := r.image + (n - r.first)

/-- Whether the forms of a run are characters outside the lower-case letters of ASCII, where no digit
has a form and letters have letters. -/
def isSound (r : CaseRun) : Bool :=
  (Nat.blt (r.form r.last) 0xd800 ||
      Nat.blt 0xdfff r.image && Nat.blt (r.form r.last) 0x110000) &&
    (Nat.blt (r.form r.last) 0x61 || Nat.blt 0x7a r.image) &&
    digits.avoids r.first r.last &&
    (letters.covers r.image (r.form r.last) || letters.avoids r.first r.last ||
      r.listed.all fun n => letters.covers (r.form n) (r.form n))

variable {r : CaseRun}

theorem bounds_of_lists
    {n : Nat}
    (h : r.lists n = true) :
    r.first ≤ n ∧ n ≤ r.last := by
  rw [lists, Bool.and_eq_true, Bool.and_eq_true, decide_eq_true_eq, decide_eq_true_eq] at h
  exact h.1

theorem mem_listed
    {n : Nat}
    (h : r.lists n = true) :
    n ∈ r.listed := by
  obtain ⟨hfirst, hlast⟩ := bounds_of_lists h
  rw [lists, Bool.and_eq_true, beq_iff_eq] at h
  have hsteps := Nat.div_add_mod (n - r.first) r.step
  refine List.mem_map.2 ⟨(n - r.first) / r.step, List.mem_range.2 ?_, by omega⟩
  exact Nat.lt_succ_of_le (Nat.div_le_div_right (Nat.sub_le_sub_right hlast r.first))

/-- A character whose code point a sound run lists. -/
theorem spec_of_isSound
    (hr : r.isSound = true)
    {c : Char}
    (hc : r.lists c.toNat = true) :
    (Char.ofNat (r.form c.toNat)).toNat = r.form c.toNat ∧
      (r.form c.toNat < 0x61 ∨ 0x7a < r.form c.toNat) ∧ isDigit c = false ∧
      (isLetter c = true → isLetter (Char.ofNat (r.form c.toNat)) = true) := by
  obtain ⟨hfirst, hlast⟩ := bounds_of_lists hc
  have himage : r.image ≤ r.form c.toNat := Nat.le_add_right r.image _
  have hend : r.form c.toNat ≤ r.form r.last :=
    Nat.add_le_add_left (Nat.sub_le_sub_right hlast r.first) r.image
  simp only [isSound, Bool.and_eq_true, Bool.or_eq_true, Nat.blt_eq] at hr
  obtain ⟨⟨⟨hscalar, hascii⟩, hdigits⟩, hletters⟩ := hr
  have hvalid : (r.form c.toNat).isValidChar := by
    rcases hscalar with hlow | ⟨hlow, hhigh⟩
    · exact .inl (Nat.lt_of_le_of_lt hend hlow)
    · exact .inr ⟨Nat.lt_of_lt_of_le hlow himage, Nat.lt_of_le_of_lt hend hhigh⟩
  have hform : (Char.ofNat (r.form c.toNat)).toNat = r.form c.toNat := by
    rw [Char.ofNat, dif_pos hvalid]
    rfl
  refine ⟨hform, ?_, CodeRange.member_of_avoids hdigits hfirst hlast, fun hletter => ?_⟩
  · rcases hascii with hbelow | habove
    · exact .inl (Nat.lt_of_le_of_lt hend hbelow)
    · exact .inr (Nat.lt_of_lt_of_le habove himage)
  · rcases hletters with (hcovers | havoids) | hlisted
    · exact CodeRange.member_of_covers hcovers (hform.symm ▸ himage) (hform.symm ▸ hend)
    · rw [isLetter, CodeRange.member_of_avoids havoids hfirst hlast] at hletter
      cases hletter
    · have hcovers := List.all_eq_true.1 hlisted _ (mem_listed hc)
      exact CodeRange.member_of_covers hcovers (Nat.le_of_eq hform.symm) (Nat.le_of_eq hform)

end CaseRun

theorem isSound_caseRuns :
    caseRuns.all CaseRun.isSound = true := by
  decide +kernel

/-- The upper-case form of a character is itself, or the one that a sound run gives. -/
theorem toUpper_cases
    (c : Char) :
    (toUpper c = c ∧ ∀ r ∈ caseRuns, r.lists c.toNat = false) ∨
      ∃ r : CaseRun, r.isSound = true ∧ r.lists c.toNat = true ∧
        toUpper c = Char.ofNat (r.form c.toNat) := by
  unfold toUpper
  cases hfind : caseRuns.find? (·.lists c.toNat) with
  | none =>
      refine .inl ⟨rfl, fun r hr => ?_⟩
      exact Bool.eq_false_iff.2 (List.find?_eq_none.1 hfind r hr)
  | some r =>
      have hr := List.all_eq_true.1 isSound_caseRuns r (List.mem_of_find?_eq_some hfind)
      have hlists := List.find?_some (p := fun r : CaseRun => r.lists c.toNat) hfind
      exact .inr ⟨r, hr, hlists, rfl⟩

theorem toUpper_letter
    {c : Char}
    (h : isLetter c = true) :
    isLetter (toUpper c) = true := by
  rcases toUpper_cases c with ⟨hsame, -⟩ | ⟨r, hr, hlists, hform⟩
  · rwa [hsame]
  · rw [hform]
    exact (CaseRun.spec_of_isSound hr hlists).2.2.2 h

theorem toUpper_digit
    {c : Char}
    (h : isDigit c = true) :
    toUpper c = c := by
  rcases toUpper_cases c with ⟨hsame, -⟩ | ⟨r, hr, hlists, -⟩
  · exact hsame
  · rw [(CaseRun.spec_of_isSound hr hlists).2.2.1] at h
    cases h

/-- No upper-case form is a lower-case letter of ASCII. -/
theorem toUpper_not_lower
    (c : Char) :
    (toUpper c).toNat < 0x61 ∨ 0x7a < (toUpper c).toNat := by
  rcases toUpper_cases c with ⟨hsame, hlists⟩ | ⟨r, hr, hlists, hform⟩
  · have hfirst := hlists ⟨0x61, 0x7a, 1, 0x41⟩ List.mem_cons_self
    simp only [CaseRun.lists, Nat.mod_one, beq_self_eq_true, Bool.and_true,
      Bool.and_eq_false_iff, decide_eq_false_iff_not] at hfirst
    rw [hsame]
    omega
  · obtain ⟨hnat, hlower, -⟩ := CaseRun.spec_of_isSound hr hlists
    rw [hform, hnat]
    exact hlower

end Text

namespace Identifier

open Text

/-! ## Capitalized names -/

/-- A character that names keep. -/
def isKept (c : Char) : Bool := isLetter c || isDigit c

theorem isKept_toUpper
    {c : Char}
    (h : isKept c = true) :
    isKept (toUpper c) = true := by
  rcases Bool.or_eq_true_iff.1 h with hletter | hdigit
  · rw [isKept, toUpper_letter hletter, Bool.true_or]
  · rwa [toUpper_digit hdigit]

/-- Names keep letters and digits in their order, each as it is or in upper case. -/
theorem capitalize_kept
    (fresh : Bool) (cs : List Char) :
    (∀ d ∈ capitalize fresh cs, isKept d = true) ∧
      List.Forall₂ (fun c d => d = c ∨ d = toUpper c) (cs.filter isKept) (capitalize fresh cs) := by
  induction cs generalizing fresh with
  | nil =>
      exact ⟨fun d hd => absurd hd List.not_mem_nil, .nil⟩
  | cons c rest ih =>
      rw [capitalize, List.filter_cons, ← isKept]
      split
      · next hkept =>
          obtain ⟨hall, hrelated⟩ := ih false
          cases fresh with
          | true =>
              exact ⟨List.forall_mem_cons.2 ⟨isKept_toUpper hkept, hall⟩, .cons (.inr rfl) hrelated⟩
          | false =>
              exact ⟨List.forall_mem_cons.2 ⟨hkept, hall⟩, .cons (.inl rfl) hrelated⟩
      · exact ih true

/-- A name begins with an upper-case form. -/
theorem head_capitalize
    {cs rest : List Char} {c : Char}
    (h : capitalize true cs = c :: rest) :
    ∃ d, c = toUpper d := by
  induction cs with
  | nil =>
      cases h
  | cons d cs ih =>
      rw [capitalize] at h
      split at h
      · exact ⟨d, ((List.cons.inj h).1).symm⟩
      · exact ih h

/-- A text whose first character is no lower-case letter of ASCII is no keyword. -/
theorem not_keyword
    {c : Char}
    (h : c.toNat < 0x61 ∨ 0x7a < c.toNat)
    (rest : List Char) :
    encodeChars (c :: rest) ∉ keywords := by
  intro hmem
  have hlower : keywords.all (fun word => (shownChars word).head?.any fun c =>
      decide (0x61 ≤ c.toNat) && decide (c.toNat ≤ 0x7a)) = true := by decide +kernel
  have hfirst := List.all_eq_true.1 hlower _ hmem
  rw [shownChars_encodeChars, List.head?_cons, Option.any_some, Bool.and_eq_true,
    decide_eq_true_eq, decide_eq_true_eq] at hfirst
  omega

/-- The characters of a name: a letter that is no lower-case letter of ASCII, then letters and
digits. -/
structure Named (cs : List Char) : Prop where
  kept : ∀ c ∈ cs, isKept c = true
  first : ∃ c rest, cs = c :: rest ∧ isLetter c = true ∧ isDigit c = false ∧
    (c.toNat < 0x61 ∨ 0x7a < c.toNat)

theorem Named.isValid
    {cs : List Char}
    (h : Named cs) :
    isValid (encodeChars cs) = true ∧ encodeChars cs ∉ keywords := by
  obtain ⟨hkept, c, rest, rfl, hletter, -, hlower⟩ := h
  have hword := not_keyword hlower rest
  have hrest : rest.all (fun c => isStart c || isDigit c) = true := by
    refine List.all_eq_true.2 fun d hd => ?_
    have hd := hkept d (List.mem_cons_of_mem c hd)
    rw [isKept, Bool.or_eq_true] at hd
    rw [isStart, Bool.or_eq_true, Bool.or_eq_true]
    exact hd.imp_left .inl
  refine ⟨?_, hword⟩
  have hstart : isStart c = true := by rw [isStart, hletter, Bool.true_or]
  have hfree : keywords.contains (encodeChars (c :: rest)) = false := by
    rw [Bool.eq_false_iff, ne_eq, List.contains_iff_mem]
    exact hword
  rw [Identifier.isValid, shownChars_encodeChars]
  simp only [hstart, hrest, hfree, Bool.and_self, Bool.not_false]

/-- The word in front of names that need one. -/
def front : List Char := "Template".toList

theorem named_front_append
    {cs : List Char}
    (h : ∀ c ∈ cs, isKept c = true) :
    Named (front ++ cs) := by
  have hfront : front.all isKept = true := by decide +kernel
  refine ⟨fun c hc => ?_, 'T', "emplate".toList ++ cs, rfl, by decide +kernel, by decide +kernel,
    by decide⟩
  rcases List.mem_append.1 hc with hc | hc
  · exact List.all_eq_true.1 hfront c hc
  · exact h c hc

/-- A program is not refused for an identifier. -/
theorem ofProgram_ne_functionName
    {function : Bytes}
    (h : isValid function = true)
    (p : Program) (package name : Bytes) :
    Source.ofProgram p package function ≠ .error (.functionName name) := by
  unfold Source.ofProgram Source.fileOf
  rw [h, Bool.not_true, if_neg Bool.false_ne_true]
  split
  · exact fun h => by cases h
  · split <;> exact fun h => by cases h

theorem named_of_head
    {c : Char} {rest : List Char}
    (h : ∀ d ∈ c :: rest, isKept d = true)
    (hdigit : isDigit c = false)
    (hlower : c.toNat < 0x61 ∨ 0x7a < c.toNat) :
    Named (c :: rest) := by
  have hletter := h c List.mem_cons_self
  rw [isKept, hdigit, Bool.or_false] at hletter
  exact ⟨h, c, rest, rfl, hletter, hdigit, hlower⟩

/-- The name of a file's function: what is kept of the file's name, with the word in front exactly
where this is empty or begins with a digit. -/
theorem ofFile_eq
    (path : Bytes) :
    ∃ word kept, ofFile path = encodeChars (word ++ kept) ∧ Named (word ++ kept) ∧
      List.Forall₂ (fun c d => d = c ∨ d = toUpper c)
        ((shownChars (stem (FileName.base path))).filter isKept) kept ∧
      word = if kept.head?.all isDigit then front else [] := by
  obtain ⟨hkept, hrelated⟩ := capitalize_kept true (shownChars (stem (FileName.base path)))
  unfold ofFile
  simp only
  split
  · next hempty =>
      rw [hempty] at hrelated hkept
      exact ⟨front, [], by rw [List.append_nil]; rfl, named_front_append hkept, hrelated, rfl⟩
  · next c rest hname =>
      have hhead := head_capitalize hname
      rw [hname] at hrelated hkept ⊢
      split
      · next hdigit =>
          refine ⟨front, c :: rest, ?_, named_front_append hkept, hrelated, ?_⟩
          · rw [encodeChars, encodeChars, List.flatMap_append]
            rfl
          · rw [List.head?_cons, Option.all_some, hdigit, if_pos rfl]
      · next hdigit =>
          obtain ⟨d, rfl⟩ := hhead
          have hdigit := Bool.eq_false_iff.2 hdigit
          refine ⟨[], _, rfl, named_of_head hkept hdigit (toUpper_not_lower d), hrelated, ?_⟩
          rw [List.head?_cons, Option.all_some, hdigit, if_neg Bool.false_ne_true]

/-- Every file has a function name: an identifier of letters and digits that does not begin with a
digit and is no keyword, made of the letters and digits of the file's name.  So no program is refused
for the name of its function. -/
theorem ofFile_is_identifier
    (path : Bytes) :
    isValid (ofFile path) = true ∧ ofFile path ∉ keywords ∧
      (∃ c rest, ofFile path = encodeChars (c :: rest) ∧ isLetter c = true ∧ isDigit c = false ∧
        ∀ d ∈ rest, isLetter d = true ∨ isDigit d = true) ∧
      (∃ word kept, ofFile path = encodeChars (word ++ kept) ∧
        List.Forall₂ (fun c d => d = c ∨ d = toUpper c)
          ((shownChars (stem (FileName.base path))).filter fun c => isLetter c || isDigit c) kept ∧
        word = if kept.head?.all isDigit then "Template".toList else []) ∧
      (∀ p package name, Source.ofProgram p package (ofFile path) ≠ .error (.functionName name)) ∧
      ∀ source d name, emitFile path source d ≠ .error (.emit (.functionName name)) := by
  obtain ⟨word, kept, heq, hnamed, hrelated, hword⟩ := ofFile_eq path
  obtain ⟨hvalid, hfree⟩ := hnamed.isValid
  rw [← heq] at hvalid hfree
  have hprogram : ∀ p package name,
      Source.ofProgram p package (ofFile path) ≠ .error (.functionName name) :=
    fun p package name => ofProgram_ne_functionName hvalid p package name
  refine ⟨hvalid, hfree, ?_, ⟨word, kept, heq, hrelated, hword⟩, hprogram, ?_⟩
  · obtain ⟨c, rest, hcs, hletter, hdigit, -⟩ := hnamed.first
    refine ⟨c, rest, hcs ▸ heq, hletter, hdigit, fun d hd => ?_⟩
    exact Bool.or_eq_true_iff.1 (hnamed.kept d (hcs ▸ List.mem_cons_of_mem c hd))
  · intro source d name herror
    unfold emitFile at herror
    simp only at herror
    generalize Stencil.compile _ _ path source = compiled at herror
    cases compiled with
    | error fault =>
        cases herror
    | ok p =>
        rw [ok_mapError, ok_bind] at herror
        generalize hresult : Source.ofProgram p _ (ofFile path) = result at herror
        cases result with
        | ok text =>
            cases herror
        | error e =>
            cases herror
            exact hprogram _ _ name hresult

end Identifier
end Stencil
