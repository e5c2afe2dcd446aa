import Stencil.Argument

/-!
# Trimmed texts

A trimmed text does not begin with white space, and so it does not begin with a byte that separates
arguments.  The bytes of a longer character and the stray bytes are outside of ASCII, so none of
them separates arguments either.

Result: `Text.isSpace_of_trim`.
-/

namespace Stencil

namespace Glyph

theorem bytes_ne_nil
    (g : Glyph) :
    g.bytes ≠ [] := by
  cases g with
  | char c =>
      have hpos : 0 < (String.utf8EncodeChar c).length := by
        rw [String.length_utf8EncodeChar]
        exact c.utf8Size_pos
      exact List.ne_nil_of_length_pos hpos
  | stray b =>
      exact List.cons_ne_nil b []

theorem not_lt_of_head_eq_stray
    {b c : UInt8} {rest : Bytes}
    (h : head b rest = .stray c) :
    ¬ c < 0x80 := by
  unfold head at h
  split at h
  · cases h
  · next hb =>
      split at h
      · split at h
        · cases h
        · cases h
          exact hb
      · split at h
        · cases h
        · cases h
          exact hb
      · split at h
        · cases h
        · cases h
          exact hb
      · cases h
        exact hb

/-- A stray byte is outside of ASCII. -/
theorem not_lt_of_stray_mem
    {n : Nat} {s : Bytes} {c : UInt8}
    (h : .stray c ∈ glyphsFrom n s) :
    ¬ c < 0x80 := by
  fun_induction glyphsFrom n s with
  | case1 =>
      cases h
  | case2 n b rest ih =>
      exact ih h
  | case3 b rest g ih =>
      rcases List.mem_cons.1 h with hfirst | hrest
      · exact not_lt_of_head_eq_stray hfirst.symm
      · exact ih hrest

/-- A character begins with the byte of its number, or with a byte outside of ASCII. -/
theorem toNat_of_utf8EncodeChar
    {c : Char} {b : UInt8} {rest : Bytes}
    (h : String.utf8EncodeChar c = b :: rest) :
    b.toNat = c.toNat ∨ 0x80 ≤ b.toNat := by
  have hnumber : c.val.toNat = c.toNat := rfl
  unfold String.utf8EncodeChar at h
  simp only [hnumber] at h
  split at h
  · obtain ⟨rfl, _⟩ := List.cons.inj h
    left
    rw [UInt8.toNat_ofNat']
    omega
  · right
    split at h
    · obtain ⟨rfl, _⟩ := List.cons.inj h
      rw [UInt8.toNat_ofNat']
      omega
    · split at h
      · obtain ⟨rfl, _⟩ := List.cons.inj h
        rw [UInt8.toNat_ofNat']
        omega
      · obtain ⟨rfl, _⟩ := List.cons.inj h
        rw [UInt8.toNat_ofNat']
        omega

end Glyph

theorem Argument.toNat_of_isSpace
    {b : UInt8}
    (h : isSpace b = true) :
    (0x09 ≤ b.toNat ∧ b.toNat ≤ 0x0d) ∨ b.toNat = 0x20 := by
  simp only [isSpace, Bool.or_eq_true, beq_iff_eq] at h
  rcases h with ((rfl | rfl) | rfl) | rfl
  · right; rfl
  · left; decide
  · left; decide
  · left; decide

namespace Text

/-- The first byte of a glyph that is no white space separates no arguments. -/
theorem isSpace_of_isSpaceGlyph
    {s : Bytes} {g : Glyph} {b : UInt8} {rest : Bytes}
    (hg : g ∈ glyphs s)
    (hspace : isSpaceGlyph g = false)
    (hb : g.bytes = b :: rest) :
    Argument.isSpace b = false := by
  refine Bool.eq_false_iff.2 fun h => ?_
  have hbyte := Argument.toNat_of_isSpace h
  cases g with
  | char c =>
      have hchar : isSpace c = false := hspace
      simp only [isSpace, Bool.or_eq_false_iff, Bool.and_eq_false_iff, decide_eq_false_iff_not,
        beq_eq_false_iff_ne] at hchar
      rcases Glyph.toNat_of_utf8EncodeChar hb with hsame | hlarge
      · omega
      · omega
  | stray c =>
      obtain ⟨rfl, _⟩ := List.cons.inj hb
      have hlarge := Glyph.not_lt_of_stray_mem hg
      rw [UInt8.lt_iff_toNat_lt] at hlarge
      have hbound : (0x80 : UInt8).toNat = 0x80 := rfl
      omega

theorem dropWhile_reverse_isPrefix
    {α : Type} (p : α → Bool) (l : List α) :
    (l.reverse.dropWhile p).reverse <+: l := by
  have h := List.reverse_prefix.2 (List.dropWhile_suffix p (l := l.reverse))
  rwa [List.reverse_reverse] at h

/-- A trimmed text does not begin with a byte that separates arguments. -/
theorem isSpace_of_trim
    {s : Bytes} {b : UInt8} {rest : Bytes}
    (h : trim s = b :: rest) :
    Argument.isSpace b = false := by
  unfold trim unread at h
  cases hkept : (((glyphs s).dropWhile isSpaceGlyph).reverse.dropWhile isSpaceGlyph).reverse with
  | nil =>
      rw [hkept] at h
      cases h
  | cons g more =>
      have hprefix := dropWhile_reverse_isPrefix isSpaceGlyph ((glyphs s).dropWhile isSpaceGlyph)
      rw [hkept] at hprefix
      obtain ⟨tail, htail⟩ := hprefix
      have hspace : isSpaceGlyph g = false := by
        have hhead := List.head?_dropWhile_not isSpaceGlyph (glyphs s)
        rw [← htail] at hhead
        exact hhead
      have hmem : g ∈ glyphs s := by
        refine (List.dropWhile_sublist isSpaceGlyph).subset ?_
        rw [← htail]
        exact List.mem_cons_self
      rw [hkept, List.flatMap_cons] at h
      cases hbytes : g.bytes with
      | nil =>
          exact absurd hbytes (g.bytes_ne_nil)
      | cons c tail =>
          rw [hbytes] at h
          obtain ⟨rfl, _⟩ := List.cons.inj h
          exact isSpace_of_isSpaceGlyph hmem hspace hbytes

end Text
end Stencil
