import Stencil.Proofs.Text.Utf8
import Stencil.Text.Entity

/-!
# References in well-formed texts

A character reference is written in ASCII and stands for characters, so decoding the references of a
well-formed text gives a well-formed text.

Result: `Entity.isUtf8_decode`.
-/

namespace Stencil
namespace Entity

theorem isUtf8_named
    {name text : Bytes}
    (h : named? name = some text) :
    isUtf8 text = true := by
  unfold named? at h
  split at h
  · cases h
  · obtain ⟨entry, _, rfl⟩ := Option.map_eq_some_iff.1 h
    exact isUtf8_iff.2 ⟨entry.2.map Char.ofNat, by rw [encodeChars, List.flatMap_map]⟩

theorem isUtf8_numbered
    (n : Nat) :
    isUtf8 (numbered n) = true := by
  have hchar : ∀ m : Nat, isUtf8 (if m = 0 ∨ ¬ m.isValidChar then utf8 "\uFFFD"
      else String.utf8EncodeChar (Char.ofNat m)) = true := by
    intro m
    split
    · exact isUtf8_utf8 _
    · exact isUtf8_iff.2 ⟨[Char.ofNat m], by simp [encodeChars]⟩
  exact hchar _

theorem isUtf8_shortened
    {name : Bytes} {n : Nat} {text : Bytes} {length : Nat}
    (h : shortened? name n = some (text, length)) :
    isUtf8 text = true ∧ length ≤ n := by
  fun_induction shortened? name n with
  | case1 | case2 =>
      cases h
  | case3 n text' hnamed =>
      cases h
      exact ⟨isUtf8_named hnamed, Nat.le_refl _⟩
  | case4 n hnamed ih =>
      obtain ⟨htext, hlength⟩ := ih h
      exact ⟨htext, by omega⟩

theorem ascii_of_isNameByte
    {b : UInt8}
    (h : isNameByte b = true) :
    b < 0x80 := by
  simp only [isNameByte, Ascii.isLetter, Ascii.isDigit, Bool.or_eq_true, Bool.and_eq_true,
    decide_eq_true_eq] at h
  grind

theorem ascii_of_hexValue
    {b : UInt8}
    (h : (Ascii.hexValue? b).isSome = true) :
    b < 0x80 := by
  grind [Ascii.hexValue?, Ascii.isDigit]

/-- A run of bytes and a semicolon if one follows it. -/
theorem mem_run
    {p : UInt8 → Bool} {s : Bytes} {n : Nat} {b : UInt8}
    (hn : n ≤ (s.takeWhile p).length +
      if (s.drop (s.takeWhile p).length).head? = some Ascii.semicolon then 1 else 0)
    (hb : b ∈ s.take n) :
    p b = true ∨ b = Ascii.semicolon := by
  have hsplit : s.takeWhile p ++ s.dropWhile p = s := List.takeWhile_append_dropWhile
  have hdrop : s.drop (s.takeWhile p).length = s.dropWhile p := by
    have hleft := @List.drop_left _ (s.takeWhile p) (s.dropWhile p)
    rwa [hsplit] at hleft
  rw [hdrop] at hn
  rw [← hsplit, List.take_append, List.mem_append] at hb
  rcases hb with hb | hb
  · exact Or.inl (List.all_eq_true.1 List.all_takeWhile b (List.mem_of_mem_take hb))
  · right
    cases hrest : s.dropWhile p with
    | nil =>
        rw [hrest, List.take_nil] at hb
        cases hb
    | cons c rest =>
        rw [hrest] at hb hn
        by_cases hc : c = Ascii.semicolon
        · subst hc
          have hle : n - (s.takeWhile p).length ≤ 1 := by
            simp only [List.head?_cons, if_true] at hn
            omega
          simpa using List.take_subset_take_left (Ascii.semicolon :: rest) hle hb
        · simp only [List.head?_cons, Option.some.injEq, hc, if_false] at hn
          rw [show n - (s.takeWhile p).length = 0 by omega] at hb
          cases hb

/-- The length of a numeric reference covers its introduction, its digits and a semicolon, all of
them ASCII. -/
theorem ascii_of_numeric
    {s text : Bytes} {length : Nat}
    (h : numeric? s = some (text, length)) :
    isUtf8 text = true ∧ 2 ≤ length ∧ ∀ b ∈ s.take (length - 2), b < 0x80 := by
  unfold numeric? at h
  split at h
  · cases h
  · simp only at h
    split at h
    · next hhex =>
        split at h
        · cases h
        · cases h
          refine ⟨isUtf8_numbered _, by simp only [numericLength]; omega, fun b hb => ?_⟩
          cases s with
          | nil =>
              rw [List.take_nil] at hb
              cases hb
          | cons x body =>
              rw [numericLength, show ∀ m k, 3 + m + k - 2 = (m + k) + 1 by omega,
                List.take_succ_cons] at hb
              rcases List.mem_cons.1 hb with rfl | hb
              · simp only [List.head?_cons, Option.some.injEq] at hhex
                rcases hhex with rfl | rfl <;> decide
              · rcases mem_run (Nat.le_refl _) hb with hdigit | rfl
                · exact ascii_of_hexValue hdigit
                · decide
    · split at h
      · cases h
      · cases h
        refine ⟨isUtf8_numbered _, by simp only [numericLength]; omega, fun b hb => ?_⟩
        rw [numericLength, show ∀ m k, 2 + m + k - 2 = m + k by omega] at hb
        rcases mem_run (Nat.le_refl _) hb with hdigit | rfl
        · exact ascii_of_isNameByte (by simp [isNameByte, hdigit])
        · decide

/-- What a reference stands for is well-formed, and the bytes that it takes are ASCII. -/
theorem ascii_of_reference
    {place : Place} {s text : Bytes} {n : Nat}
    (h : reference? place s = some (text, n)) :
    isUtf8 text = true ∧ ∀ b ∈ s.take n, b < 0x80 := by
  have hascii : ∀ b, isNameByte b = true ∨ b = Ascii.semicolon → b < 0x80 := by
    rintro b (hb | rfl)
    · exact ascii_of_isNameByte hb
    · decide
  unfold reference? at h
  split at h
  · cases h
  · next rest =>
      obtain ⟨⟨text', length⟩, hnumeric, heq⟩ := Option.map_eq_some_iff.1 h
      cases heq
      obtain ⟨htext, hlength, hascii⟩ := ascii_of_numeric hnumeric
      refine ⟨htext, fun b hb => ?_⟩
      rw [show length - 1 = (length - 2) + 1 by omega, List.take_succ_cons] at hb
      rcases List.mem_cons.1 hb with rfl | hb
      · decide
      · exact hascii b hb
  · simp only at h
    have hname : ∀ m, m ≤ (if (s.drop (s.takeWhile isNameByte).length).head? =
        some Ascii.semicolon then s.takeWhile isNameByte ++ [Ascii.semicolon]
        else s.takeWhile isNameByte).length → ∀ b ∈ s.take m, b < 0x80 := by
      intro m hm b hb
      refine hascii b (mem_run ?_ hb)
      split at hm <;> simp_all
    split at h
    · cases h
    · split at h
      · next hnamed =>
          cases h
          exact ⟨isUtf8_named hnamed, hname _ (Nat.le_refl _)⟩
      · split at h
        · obtain ⟨htext, hlength⟩ := isUtf8_shortened h
          exact ⟨htext, hname n (by omega)⟩
        · cases h

/-- Decoding goes on behind a text that is decoded already. -/
theorem isUtf8_append_decodeFrom
    (place : Place) (n : Nat) (front s : Bytes)
    (h : isUtf8 (front ++ s.drop n) = true) :
    isUtf8 (front ++ decodeFrom place n s) = true := by
  induction s generalizing n front with
  | nil =>
      cases n <;> simpa [decodeFrom] using h
  | cons b rest ih =>
      cases n with
      | succ n =>
          exact ih n front h
      | zero =>
          have hplain : isUtf8 (front ++ b :: decodeFrom place 0 rest) = true := by
            have hrest := ih 0 (front ++ [b]) (by simpa using h)
            simpa using hrest
          rw [decodeFrom]
          split
          · next hampersand =>
              split
              · next text n hreference =>
                  obtain ⟨htext, hascii⟩ := ascii_of_reference hreference
                  subst hampersand
                  obtain ⟨hfront, hs⟩ := (isUtf8_append_cons_iff (by decide)).1 h
                  have hdrop : isUtf8 (rest.drop n) = true := by
                    rw [← List.take_append_drop n rest] at hs
                    exact isUtf8_of_ascii_append hascii hs
                  have hrest := ih n (front ++ text)
                    (isUtf8_append (isUtf8_append hfront htext) hdrop)
                  rwa [List.append_assoc] at hrest
              · exact hplain
          · exact hplain

theorem isUtf8_decode
    (place : Place) {s : Bytes}
    (h : isUtf8 s = true) :
    isUtf8 (decode place s) = true :=
  isUtf8_append_decodeFrom place 0 [] s h

end Entity
end Stencil
