import Stencil.Proofs.Text.Escape
import Stencil.Proofs.Text.Utf8

/-!
# Texts up to white space

The ink of a text is what is left of it when every white-space character is deleted.  For well-formed
texts it can be taken piece by piece, and it is taken alike before and after escaping.

Result: `Text.SameInk`, well-formed texts that differ in white space only, with what keeps it.
-/

namespace Stencil
namespace Text

/-- A text without its white space. -/
def ink (s : Bytes) : Bytes := unread ((glyphs s).filter fun g => !isSpaceGlyph g)

theorem ink_append
    {s : Bytes}
    (hs : isUtf8 s = true)
    (t : Bytes) :
    ink (s ++ t) = ink s ++ ink t := by
  simp only [ink, glyphs_append hs, List.filter_append, unread, List.flatMap_append]

theorem ink_encodeChars
    (cs : List Char) :
    ink (encodeChars cs) = encodeChars (cs.filter fun c => !isSpace c) := by
  have hkept : (cs.map Glyph.char).filter (fun g => !isSpaceGlyph g) =
      (cs.filter fun c => !isSpace c).map Glyph.char := by
    rw [List.filter_map]
    rfl
  rw [ink, glyphs_encodeChars, hkept, unread, List.flatMap_map]
  rfl

theorem ink_eq_nil_of_isBlank
    {s : Bytes}
    (h : isBlank s = true) :
    ink s = [] := by
  have hnone : (glyphs s).filter (fun g => !isSpaceGlyph g) = [] := by
    rw [List.filter_eq_nil_iff]
    intro g hg
    simp [List.all_eq_true.1 h g hg]
  rw [ink, hnone]
  rfl

/-- Well-formed texts that differ in white space only. -/
structure SameInk (s t : Bytes) : Prop where
  left : isUtf8 s = true
  right : isUtf8 t = true
  ink_eq : ink s = ink t

namespace SameInk

theorem refl
    {s : Bytes}
    (hs : isUtf8 s = true) :
    SameInk s s :=
  ⟨hs, hs, rfl⟩

theorem append
    {s t s' t' : Bytes}
    (h : SameInk s t)
    (h' : SameInk s' t') :
    SameInk (s ++ s') (t ++ t') where
  left := isUtf8_append h.left h'.left
  right := isUtf8_append h.right h'.right
  ink_eq := by rw [ink_append h.left, ink_append h.right, h.ink_eq, h'.ink_eq]

/-- Characters may be deleted as long as they are white space. -/
theorem filter
    {cs : List Char} {keep : Char → Bool}
    (hkeep : ∀ c, keep c = false → isSpace c = true) :
    SameInk (encodeChars cs) (encodeChars (cs.filter keep)) where
  left := isUtf8_encodeChars cs
  right := isUtf8_encodeChars _
  ink_eq := by
    rw [ink_encodeChars, ink_encodeChars, List.filter_filter]
    refine congrArg encodeChars (List.filter_congr fun c _ => ?_)
    cases hc : keep c with
    | true =>
        rw [Bool.and_true]
    | false =>
        rw [hkeep c hc]
        rfl

end SameInk

/-- A text and its ink. -/
theorem sameInk_ink
    {s : Bytes}
    (hs : isUtf8 s = true) :
    SameInk s (ink s) := by
  obtain ⟨cs, rfl⟩ := isUtf8_iff.1 hs
  rw [ink_encodeChars]
  exact SameInk.filter fun c hc => by simpa using hc

/-! ## Escaping -/

theorem escapeHtml_append
    (s t : Bytes) :
    escapeHtml (s ++ t) = escapeHtml s ++ escapeHtml t :=
  List.flatMap_append

theorem escapeHtml_of_not_mem
    {s : Bytes}
    (h : ∀ b ∈ s, b ∉ escaped) :
    escapeHtml s = s := by
  induction s with
  | nil =>
      rfl
  | cons b rest ih =>
      have hrest := ih fun c hc => h c (List.mem_cons_of_mem b hc)
      rw [escapeHtml, List.flatMap_cons, escapeByte_of_not_mem (h b List.mem_cons_self)]
      exact congrArg (b :: ·) hrest

/-- Escaping writes no white space and leaves the white space that there is. -/
theorem escapeHtml_char
    (c : Char) :
    isUtf8 (escapeHtml (String.utf8EncodeChar c)) = true ∧
      ink (escapeHtml (String.utf8EncodeChar c)) = escapeHtml (ink (String.utf8EncodeChar c)) := by
  by_cases hescaped : ∃ b ∈ escaped, b ∈ String.utf8EncodeChar c
  · obtain ⟨b, hb, hmem⟩ := hescaped
    have hascii : ∀ b ∈ escaped, b < 0x80 := by decide +kernel
    have hreferences : ∀ b ∈ escaped,
        isUtf8 (escapeHtml [b]) = true ∧ ink (escapeHtml [b]) = escapeHtml (ink [b]) := by
      decide +kernel
    rw [Glyph.utf8EncodeChar_eq_of_mem hmem (hascii b hb)]
    exact hreferences b hb
  · have hbytes : ∀ b ∈ String.utf8EncodeChar c, b ∉ escaped := fun b hb hmem =>
      hescaped ⟨b, hmem, hb⟩
    have hchar : String.utf8EncodeChar c = encodeChars [c] := by simp [encodeChars]
    rw [escapeHtml_of_not_mem hbytes, hchar, ink_encodeChars]
    refine ⟨isUtf8_encodeChars [c], ?_⟩
    rw [List.filter_cons]
    split
    · rw [List.filter_nil, ← hchar, escapeHtml_of_not_mem hbytes]
    · rfl

/-- The ink of an escaped text is the escaped ink. -/
theorem ink_escapeHtml
    {s : Bytes}
    (hs : isUtf8 s = true) :
    isUtf8 (escapeHtml s) = true ∧ ink (escapeHtml s) = escapeHtml (ink s) := by
  obtain ⟨cs, rfl⟩ := isUtf8_iff.1 hs
  clear hs
  induction cs with
  | nil =>
      exact ⟨rfl, rfl⟩
  | cons c cs ih =>
      obtain ⟨hfirst, hink⟩ := escapeHtml_char c
      have hchar : isUtf8 (String.utf8EncodeChar c) = true :=
        isUtf8_iff.2 ⟨[c], by simp [encodeChars]⟩
      have hcons : encodeChars (c :: cs) = String.utf8EncodeChar c ++ encodeChars cs :=
        List.flatMap_cons
      rw [hcons, escapeHtml_append, ink_append hfirst, ink_append hchar, escapeHtml_append, hink,
        ih.2]
      exact ⟨isUtf8_append hfirst ih.1, rfl⟩

/-- Texts that differ in white space only do so when they are escaped. -/
theorem SameInk.escapeHtml
    {s t : Bytes}
    (h : SameInk s t) :
    SameInk (escapeHtml s) (escapeHtml t) where
  left := (ink_escapeHtml h.left).1
  right := (ink_escapeHtml h.right).1
  ink_eq := by
    rw [(ink_escapeHtml h.left).2, (ink_escapeHtml h.right).2, h.ink_eq]

end Text
end Stencil
