import Stencil.Proofs.Text.Utf8

/-!
# Texts without white space

A text none of whose glyphs is white space is not changed by trimming.  Texts can be put together
around a byte of ASCII that is no white space, also when they hold stray bytes.  A text that trimming
does not change has white space at most inside, and stays so behind such a byte.

Results: `Text.Unspaced.trim` and `Text.trim_cons`.
-/

namespace Stencil

namespace Text

/-- Holds no white space. -/
def Unspaced (s : Bytes) : Prop := ∀ g ∈ glyphs s, isSpaceGlyph g = false

theorem unspaced_nil : Unspaced [] := fun _ h => absurd h List.not_mem_nil

theorem Unspaced.append_cons
    {s t : Bytes} {b : UInt8}
    (hs : Unspaced s)
    (ht : Unspaced t)
    (hb : b < 0x80)
    (hspace : isSpace (Char.ofNat b.toNat) = false) :
    Unspaced (s ++ b :: t) := by
  intro g hg
  rw [glyphs_append_cons hb, List.mem_append, List.mem_cons] at hg
  rcases hg with hg | rfl | hg
  · exact hs g hg
  · exact hspace
  · exact ht g hg

theorem Unspaced.cons
    {t : Bytes} {b : UInt8}
    (ht : Unspaced t)
    (hb : b < 0x80)
    (hspace : isSpace (Char.ofNat b.toNat) = false) :
    Unspaced (b :: t) :=
  unspaced_nil.append_cons ht hb hspace

theorem dropWhile_of_forall
    {gs : List Glyph}
    (h : ∀ g ∈ gs, isSpaceGlyph g = false) :
    gs.dropWhile isSpaceGlyph = gs := by
  cases gs with
  | nil =>
      rfl
  | cons g gs =>
      exact List.dropWhile_cons_of_neg (by simp [h g List.mem_cons_self])

/-- Trimming keeps a text without white space. -/
theorem Unspaced.trim
    {s : Bytes}
    (h : Unspaced s) :
    trim s = s := by
  have hback : ∀ g ∈ (glyphs s).reverse, isSpaceGlyph g = false :=
    fun g hg => h g (List.mem_reverse.1 hg)
  rw [Text.trim, dropWhile_of_forall h, dropWhile_of_forall hback, List.reverse_reverse,
    unread_glyphs]

/-! ## Trimmed texts -/

/-- The glyphs that trimming keeps. -/
def keptGlyphs (gs : List Glyph) : List Glyph :=
  ((gs.dropWhile isSpaceGlyph).reverse.dropWhile isSpaceGlyph).reverse

theorem keptGlyphs_isPrefix
    (gs : List Glyph) :
    keptGlyphs gs <+: gs.dropWhile isSpaceGlyph :=
  dropWhile_reverse_isPrefix isSpaceGlyph _

theorem keptGlyphs_sublist
    (gs : List Glyph) :
    (keptGlyphs gs).Sublist gs :=
  (keptGlyphs_isPrefix gs).sublist.trans (List.dropWhile_sublist _)

theorem unread_sublist
    {gs kept : List Glyph}
    (h : kept.Sublist gs) :
    (unread kept).Sublist (unread gs) := by
  induction h with
  | slnil =>
      exact .slnil
  | cons g _ ih =>
      exact ih.trans (List.sublist_append_right g.bytes _)
  | cons_cons g _ ih =>
      exact ih.append_left g.bytes

theorem trim_sublist
    (s : Bytes) :
    (Text.trim s).Sublist s := by
  have h := unread_sublist (keptGlyphs_sublist (glyphs s))
  rwa [unread_glyphs] at h

/-- Glyphs that are left out are missed in the text. -/
theorem eq_of_length_unread
    {gs kept : List Glyph}
    (h : kept.Sublist gs)
    (hlength : (unread gs).length ≤ (unread kept).length) :
    kept = gs := by
  induction h with
  | slnil =>
      rfl
  | @cons kept gs g h ih =>
      have hpos := List.length_pos_iff.2 g.bytes_ne_nil
      have hle := (unread_sublist h).length_le
      rw [unread, List.flatMap_cons, List.length_append, ← unread] at hlength
      omega
  | @cons_cons kept gs g h ih =>
      rw [unread, unread, List.flatMap_cons, List.flatMap_cons, List.length_append,
        List.length_append] at hlength
      rw [ih (Nat.le_of_add_le_add_left hlength)]

/-- A text that is trimmed stays so behind a byte of ASCII that is no white space. -/
theorem trim_cons
    {s : Bytes} {b : UInt8}
    (hs : Text.trim s = s)
    (hb : b < 0x80)
    (hspace : isSpace (Char.ofNat b.toNat) = false) :
    Text.trim (b :: s) = b :: s := by
  have hkept : keptGlyphs (glyphs s) = glyphs s := by
    refine eq_of_length_unread (keptGlyphs_sublist _) ?_
    have htrim : unread (keptGlyphs (glyphs s)) = s := hs
    exact Nat.le_of_eq (by rw [htrim, unread_glyphs])
  have hfront : (glyphs s).dropWhile isSpaceGlyph = glyphs s := by
    refine (List.dropWhile_sublist _).eq_of_length_le ?_
    have hle := (keptGlyphs_isPrefix (glyphs s)).length_le
    rwa [hkept] at hle
  have hback : (glyphs s).reverse.dropWhile isSpaceGlyph = (glyphs s).reverse := by
    rw [keptGlyphs, hfront] at hkept
    exact List.reverse_eq_iff.1 hkept
  have hsign : isSpaceGlyph (.char (Char.ofNat b.toNat)) ≠ true := Bool.eq_false_iff.1 hspace
  have hlast : ((glyphs s).reverse ++ [Glyph.char (Char.ofNat b.toNat)]).dropWhile isSpaceGlyph =
      (glyphs s).reverse ++ [Glyph.char (Char.ofNat b.toNat)] := by
    rw [List.dropWhile_append, hback]
    split
    · next hnil =>
        rw [List.isEmpty_iff.1 hnil, List.dropWhile_cons_of_neg hsign]
        rfl
    · rfl
  rw [Text.trim, glyphs_cons_of_ascii hb, List.dropWhile_cons_of_neg hsign, List.reverse_cons,
    hlast, ← List.reverse_cons, List.reverse_reverse, ← glyphs_cons_of_ascii hb, unread_glyphs]

end Text
end Stencil
