import Stencil.Proofs.Text.Blank

/-!
# Well-formed texts

A text is well-formed when it is the encoding of some characters.  Reading it gives these characters
back, also when more bytes follow, so the glyphs of well-formed texts one after the other are the
glyphs of each.  A byte of ASCII is a character of its own wherever it stands, and therefore the
parts of a well-formed text before and after such a byte are well-formed.

Results: `isUtf8_iff`, `glyphs_append` and `isUtf8_append_cons_iff`.  The parts of a well-formed text
that are cut off at bytes of ASCII follow.
-/

namespace Stencil

/-! ## Characters and their bytes -/

namespace Glyph

theorem utf8EncodeChar_one
    (c : Char)
    (h : c.toNat < 0x80) :
    ∃ b, String.utf8EncodeChar c = [b] ∧ b.toNat = c.toNat := by
  have hnumber : c.val.toNat = c.toNat := rfl
  simp only [String.utf8EncodeChar, hnumber]
  rw [if_pos (by omega)]
  refine ⟨_, rfl, ?_⟩
  rw [UInt8.toNat_ofNat']
  omega

theorem utf8EncodeChar_two
    (c : Char)
    (hlow : 0x80 ≤ c.toNat)
    (hhigh : c.toNat < 0x800) :
    ∃ b b₁, String.utf8EncodeChar c = [b, b₁] ∧ b.toNat = c.toNat / 64 + 0xc0 ∧
      b₁.toNat = c.toNat % 64 + 0x80 := by
  have hnumber : c.val.toNat = c.toNat := rfl
  simp only [String.utf8EncodeChar, hnumber]
  rw [if_neg (by omega), if_pos (by omega)]
  refine ⟨_, _, rfl, ?_, ?_⟩ <;>
    · rw [UInt8.toNat_ofNat']
      omega

theorem utf8EncodeChar_three
    (c : Char)
    (hlow : 0x800 ≤ c.toNat)
    (hhigh : c.toNat < 0x10000) :
    ∃ b b₁ b₂, String.utf8EncodeChar c = [b, b₁, b₂] ∧ b.toNat = c.toNat / 4096 + 0xe0 ∧
      b₁.toNat = c.toNat / 64 % 64 + 0x80 ∧ b₂.toNat = c.toNat % 64 + 0x80 := by
  have hnumber : c.val.toNat = c.toNat := rfl
  simp only [String.utf8EncodeChar, hnumber]
  rw [if_neg (by omega), if_neg (by omega), if_pos (by omega)]
  refine ⟨_, _, _, rfl, ?_, ?_, ?_⟩ <;>
    · rw [UInt8.toNat_ofNat']
      omega

theorem utf8EncodeChar_four
    (c : Char)
    (hlow : 0x10000 ≤ c.toNat) :
    ∃ b b₁ b₂ b₃, String.utf8EncodeChar c = [b, b₁, b₂, b₃] ∧
      b.toNat = c.toNat / 262144 + 0xf0 ∧ b₁.toNat = c.toNat / 4096 % 64 + 0x80 ∧
      b₂.toNat = c.toNat / 64 % 64 + 0x80 ∧ b₃.toNat = c.toNat % 64 + 0x80 := by
  have hnumber : c.val.toNat = c.toNat := rfl
  have hvalid : c.toNat < 0xd800 ∨ (0xdfff < c.toNat ∧ c.toNat < 0x110000) := c.valid
  simp only [String.utf8EncodeChar, hnumber]
  rw [if_neg (by omega), if_neg (by omega), if_neg (by omega)]
  refine ⟨_, _, _, _, rfl, ?_, ?_, ?_, ?_⟩ <;>
    · rw [UInt8.toNat_ofNat']
      omega

theorem continues_iff
    {b : UInt8} :
    continues b = true ↔ 0x80 ≤ b.toNat ∧ b.toNat < 0xc0 := by
  simp only [continues, Bool.and_eq_true, decide_eq_true_eq, UInt8.le_iff_toNat_le,
    UInt8.reduceToNat]
  omega

theorem not_lt_of_le_toNat
    {b : UInt8}
    (h : 0x80 ≤ b.toNat) :
    ¬ b < 0x80 := by
  rw [UInt8.lt_iff_toNat_lt]
  exact Nat.not_lt.2 h

theorem head_one
    {b : UInt8}
    (hb : b.toNat < 0x80)
    (rest : Bytes) :
    head b rest = .char (Char.ofNat b.toNat) := by
  rw [head.eq_def, if_pos (UInt8.lt_iff_toNat_lt.2 hb)]

theorem head_stray
    {b : UInt8}
    (hb : 0x80 ≤ b.toNat)
    (h : b.toNat < 0xc2 ∨ 0xf5 ≤ b.toNat)
    (rest : Bytes) :
    head b rest = .stray b := by
  have hrange : b < 0xc2 ∨ 0xf5 ≤ b := by
    simpa only [UInt8.lt_iff_toNat_lt, UInt8.le_iff_toNat_le, UInt8.reduceToNat] using h
  have hlead : lead b = none := by grind [lead]
  simp [head, not_lt_of_le_toNat hb, hlead]

theorem lead_two
    {b : UInt8}
    (hlow : 0xc2 ≤ b.toNat)
    (hhigh : b.toNat < 0xe0) :
    lead b = some (1, 0x80, 0xbf) := by
  have h₁ : 0xc2 ≤ b := UInt8.le_iff_toNat_le.2 hlow
  have h₂ : b < 0xe0 := UInt8.lt_iff_toNat_lt.2 hhigh
  grind [lead]

theorem lead_three
    {b : UInt8}
    (hlow : 0xe0 ≤ b.toNat)
    (hhigh : b.toNat < 0xf0) :
    lead b = some (2, if b = 0xe0 then 0xa0 else 0x80, if b = 0xed then 0x9f else 0xbf) := by
  have h₁ : 0xe0 ≤ b := UInt8.le_iff_toNat_le.2 hlow
  have h₂ : b < 0xf0 := UInt8.lt_iff_toNat_lt.2 hhigh
  grind [lead]

theorem lead_four
    {b : UInt8}
    (hlow : 0xf0 ≤ b.toNat)
    (hhigh : b.toNat < 0xf5) :
    lead b = some (3, if b = 0xf0 then 0x90 else 0x80, if b = 0xf4 then 0x8f else 0xbf) := by
  have h₁ : 0xf0 ≤ b := UInt8.le_iff_toNat_le.2 hlow
  have h₂ : b < 0xf5 := UInt8.lt_iff_toNat_lt.2 hhigh
  grind [lead]

theorem head_two
    {b : UInt8}
    (hlow : 0xc2 ≤ b.toNat)
    (hhigh : b.toNat < 0xe0)
    (b₁ : UInt8) (rest : Bytes) :
    head b (b₁ :: rest) =
      if 0x80 ≤ b₁.toNat ∧ b₁.toNat ≤ 0xbf then
        .char (Char.ofNat (b.toNat % 32 * 64 + b₁.toNat % 64))
      else .stray b := by
  simp only [head, if_neg (not_lt_of_le_toNat (Nat.le_trans (by decide) hlow)),
    lead_two hlow hhigh, payload, UInt8.le_iff_toNat_le, UInt8.reduceToNat]

theorem head_three
    {b : UInt8}
    (hlow : 0xe0 ≤ b.toNat)
    (hhigh : b.toNat < 0xf0)
    (b₁ b₂ : UInt8) (rest : Bytes) :
    head b (b₁ :: b₂ :: rest) =
      if ((0x80 ≤ b₁.toNat ∧ b₁.toNat ≤ 0xbf) ∧ (b.toNat = 0xe0 → 0xa0 ≤ b₁.toNat) ∧
          (b.toNat = 0xed → b₁.toNat ≤ 0x9f)) ∧ 0x80 ≤ b₂.toNat ∧ b₂.toNat < 0xc0 then
        .char (Char.ofNat ((b.toNat % 16 * 64 + b₁.toNat % 64) * 64 + b₂.toNat % 64))
      else .stray b := by
  have hrange : (if b = 0xe0 then 0xa0 else 0x80) ≤ b₁ ∧ b₁ ≤ (if b = 0xed then 0x9f else 0xbf) ↔
      (0x80 ≤ b₁ ∧ b₁ ≤ 0xbf) ∧ (b = 0xe0 → 0xa0 ≤ b₁) ∧ (b = 0xed → b₁ ≤ 0x9f) := by
    grind
  simp only [head, if_neg (not_lt_of_le_toNat (Nat.le_trans (by decide) hlow)),
    lead_three hlow hhigh, payload, ← and_assoc (a := _ ≤ b₁), hrange, continues_iff]
  simp only [UInt8.le_iff_toNat_le, ← UInt8.toNat_inj, UInt8.reduceToNat]

theorem head_four
    {b : UInt8}
    (hlow : 0xf0 ≤ b.toNat)
    (hhigh : b.toNat < 0xf5)
    (b₁ b₂ b₃ : UInt8) (rest : Bytes) :
    head b (b₁ :: b₂ :: b₃ :: rest) =
      if ((0x80 ≤ b₁.toNat ∧ b₁.toNat ≤ 0xbf) ∧ (b.toNat = 0xf0 → 0x90 ≤ b₁.toNat) ∧
          (b.toNat = 0xf4 → b₁.toNat ≤ 0x8f)) ∧ (0x80 ≤ b₂.toNat ∧ b₂.toNat < 0xc0) ∧
          0x80 ≤ b₃.toNat ∧ b₃.toNat < 0xc0 then
        .char (Char.ofNat
          (((b.toNat % 8 * 64 + b₁.toNat % 64) * 64 + b₂.toNat % 64) * 64 + b₃.toNat % 64))
      else .stray b := by
  have hrange : (if b = 0xf0 then 0x90 else 0x80) ≤ b₁ ∧ b₁ ≤ (if b = 0xf4 then 0x8f else 0xbf) ↔
      (0x80 ≤ b₁ ∧ b₁ ≤ 0xbf) ∧ (b = 0xf0 → 0x90 ≤ b₁) ∧ (b = 0xf4 → b₁ ≤ 0x8f) := by
    grind
  simp only [head, if_neg (not_lt_of_le_toNat (Nat.le_trans (by decide) hlow)),
    lead_four hlow hhigh, payload, ← and_assoc (a := _ ≤ b₁), hrange, continues_iff]
  simp only [UInt8.le_iff_toNat_le, ← UInt8.toNat_inj, UInt8.reduceToNat]

/-- A sequence that breaks off leaves its first byte stray. -/
theorem head_of_short
    {b : UInt8} {rest : Bytes} {n : Nat} {lo hi : UInt8}
    (hb : 0x80 ≤ b.toNat)
    (hlead : lead b = some (n, lo, hi))
    (hshort : rest.length < n) :
    head b rest = .stray b := by
  rw [head.eq_def, if_neg (not_lt_of_le_toNat hb), hlead]
  split
  · next heq =>
      cases heq
      simp only [List.length_cons] at hshort
      omega
  · next heq =>
      cases heq
      simp only [List.length_cons] at hshort
      omega
  · next heq =>
      cases heq
      simp only [List.length_cons] at hshort
      omega
  · rfl

theorem char_ofNat_eq
    {c : Char} {n : Nat}
    (h : n = c.toNat) :
    Glyph.char (Char.ofNat n) = .char c := by
  rw [h, Char.ofNat_toNat]

/-- A character is read back from its bytes, whatever follows them. -/
theorem head_of_utf8EncodeChar
    {c : Char} {tail : Bytes} {b : UInt8} {rest : Bytes}
    (h : String.utf8EncodeChar c ++ tail = b :: rest) :
    head b rest = .char c := by
  have hvalid : c.toNat < 0xd800 ∨ (0xdfff < c.toNat ∧ c.toNat < 0x110000) := c.valid
  by_cases hone : c.toNat < 0x80
  · obtain ⟨a, hbytes, ha⟩ := utf8EncodeChar_one c hone
    rw [hbytes] at h
    obtain ⟨rfl, rfl⟩ := List.cons.inj h
    rw [head_one (by omega)]
    exact char_ofNat_eq ha
  by_cases htwo : c.toNat < 0x800
  · obtain ⟨a, a₁, hbytes, ha, ha₁⟩ := utf8EncodeChar_two c (by omega) htwo
    rw [hbytes] at h
    obtain ⟨rfl, rfl⟩ := List.cons.inj h
    simp only [List.append_eq, List.cons_append]
    rw [head_two (by omega) (by omega), if_pos (by omega)]
    exact char_ofNat_eq (by omega)
  by_cases hthree : c.toNat < 0x10000
  · obtain ⟨a, a₁, a₂, hbytes, ha, ha₁, ha₂⟩ := utf8EncodeChar_three c (by omega) hthree
    rw [hbytes] at h
    obtain ⟨rfl, rfl⟩ := List.cons.inj h
    simp only [List.append_eq, List.cons_append]
    rw [head_three (by omega) (by omega), if_pos (by omega)]
    exact char_ofNat_eq (by omega)
  · obtain ⟨a, a₁, a₂, a₃, hbytes, ha, ha₁, ha₂, ha₃⟩ := utf8EncodeChar_four c (by omega)
    rw [hbytes] at h
    obtain ⟨rfl, rfl⟩ := List.cons.inj h
    simp only [List.append_eq, List.cons_append]
    rw [head_four (by omega) (by omega), if_pos (by omega)]
    exact char_ofNat_eq (by omega)

theorem toNat_of_char_eq
    {c : Char} {n : Nat}
    (hvalid : n.isValidChar)
    (h : Glyph.char (Char.ofNat n) = .char c) :
    c.toNat = n := by
  cases h
  rw [Char.ofNat, dif_pos hvalid]
  rfl

theorem eq_append_of_head_two
    {b : UInt8} {rest : Bytes} {c : Char}
    (hlow : 0xc2 ≤ b.toNat)
    (hhigh : b.toNat < 0xe0)
    (h : head b rest = .char c) :
    ∃ tail, b :: rest = String.utf8EncodeChar c ++ tail := by
  match rest with
  | [] =>
      rw [head_of_short (by omega) (lead_two hlow hhigh) (by simp)] at h
      cases h
  | b₁ :: rest =>
      rw [head_two hlow hhigh] at h
      split at h
      · next hrange =>
          have hn := toNat_of_char_eq (Or.inl (by omega)) h
          obtain ⟨a, a₁, hbytes, ha, ha₁⟩ := utf8EncodeChar_two c (by omega) (by omega)
          have hb : a = b := UInt8.toNat_inj.1 (by omega)
          have hb₁ : a₁ = b₁ := UInt8.toNat_inj.1 (by omega)
          exact ⟨rest, by rw [hbytes, hb, hb₁]; rfl⟩
      · cases h

theorem eq_append_of_head_three
    {b : UInt8} {rest : Bytes} {c : Char}
    (hlow : 0xe0 ≤ b.toNat)
    (hhigh : b.toNat < 0xf0)
    (h : head b rest = .char c) :
    ∃ tail, b :: rest = String.utf8EncodeChar c ++ tail := by
  match rest with
  | [] | [_] =>
      rw [head_of_short (by omega) (lead_three hlow hhigh) (by simp)] at h
      cases h
  | b₁ :: b₂ :: rest =>
      rw [head_three hlow hhigh] at h
      split at h
      · next hrange =>
          have hn := toNat_of_char_eq (by unfold Nat.isValidChar; omega) h
          obtain ⟨a, a₁, a₂, hbytes, ha, ha₁, ha₂⟩ :=
            utf8EncodeChar_three c (by omega) (by omega)
          have hb : a = b := UInt8.toNat_inj.1 (by omega)
          have hb₁ : a₁ = b₁ := UInt8.toNat_inj.1 (by omega)
          have hb₂ : a₂ = b₂ := UInt8.toNat_inj.1 (by omega)
          exact ⟨rest, by rw [hbytes, hb, hb₁, hb₂]; rfl⟩
      · cases h

theorem eq_append_of_head_four
    {b : UInt8} {rest : Bytes} {c : Char}
    (hlow : 0xf0 ≤ b.toNat)
    (hhigh : b.toNat < 0xf5)
    (h : head b rest = .char c) :
    ∃ tail, b :: rest = String.utf8EncodeChar c ++ tail := by
  match rest with
  | [] | [_] | [_, _] =>
      rw [head_of_short (by omega) (lead_four hlow hhigh) (by simp)] at h
      cases h
  | b₁ :: b₂ :: b₃ :: rest =>
      rw [head_four hlow hhigh] at h
      split at h
      · next hrange =>
          have hn := toNat_of_char_eq (by unfold Nat.isValidChar; omega) h
          obtain ⟨a, a₁, a₂, a₃, hbytes, ha, ha₁, ha₂, ha₃⟩ :=
            utf8EncodeChar_four c (by omega)
          have hb : a = b := UInt8.toNat_inj.1 (by omega)
          have hb₁ : a₁ = b₁ := UInt8.toNat_inj.1 (by omega)
          have hb₂ : a₂ = b₂ := UInt8.toNat_inj.1 (by omega)
          have hb₃ : a₃ = b₃ := UInt8.toNat_inj.1 (by omega)
          exact ⟨rest, by rw [hbytes, hb, hb₁, hb₂, hb₃]; rfl⟩
      · cases h

/-- A character that is read stands at the front with all of its bytes. -/
theorem eq_append_of_head
    {b : UInt8} {rest : Bytes} {c : Char}
    (h : head b rest = .char c) :
    ∃ tail, b :: rest = String.utf8EncodeChar c ++ tail := by
  by_cases hone : b.toNat < 0x80
  · rw [head_one hone] at h
    have hn := toNat_of_char_eq (Or.inl (by omega)) h
    obtain ⟨a, hbytes, ha⟩ := utf8EncodeChar_one c (by omega)
    exact ⟨rest, by rw [hbytes, UInt8.toNat_inj.1 (ha.trans hn)]; rfl⟩
  by_cases hstray : b.toNat < 0xc2 ∨ 0xf5 ≤ b.toNat
  · rw [head_stray (by omega) hstray] at h
    cases h
  by_cases htwo : b.toNat < 0xe0
  · exact eq_append_of_head_two (by omega) htwo h
  by_cases hthree : b.toNat < 0xf0
  · exact eq_append_of_head_three (by omega) hthree h
  · exact eq_append_of_head_four (by omega) (by omega) h

theorem eq_of_head_eq_stray
    {b c : UInt8} {rest : Bytes}
    (h : head b rest = .stray c) :
    c = b := by
  unfold head at h
  split at h
  · cases h
  · split at h
    · split at h <;> cases h
      rfl
    · split at h <;> cases h
      rfl
    · split at h <;> cases h
      rfl
    · cases h
      rfl

theorem exists_append_of_head
    (b : UInt8) (rest : Bytes) :
    ∃ tail, b :: rest = (head b rest).bytes ++ tail := by
  cases hhead : head b rest with
  | char c =>
      exact eq_append_of_head hhead
  | stray c =>
      obtain rfl := eq_of_head_eq_stray hhead
      exact ⟨rest, rfl⟩

theorem utf8EncodeChar_ofNat
    {b : UInt8}
    (hb : b < 0x80) :
    String.utf8EncodeChar (Char.ofNat b.toNat) = [b] := by
  have hlt : b.toNat < 0x80 := UInt8.lt_iff_toNat_lt.1 hb
  have hn := toNat_of_char_eq (n := b.toNat) (Or.inl (by omega)) rfl
  obtain ⟨a, hbytes, ha⟩ := utf8EncodeChar_one (Char.ofNat b.toNat) (by omega)
  rw [hbytes, UInt8.toNat_inj.1 (ha.trans hn)]

/-- A byte of ASCII is part of no longer character. -/
theorem utf8EncodeChar_eq_of_mem
    {c : Char} {b : UInt8}
    (hmem : b ∈ String.utf8EncodeChar c)
    (hb : b < 0x80) :
    String.utf8EncodeChar c = [b] := by
  have hlt : b.toNat < 0x80 := UInt8.lt_iff_toNat_lt.1 hb
  by_cases hone : c.toNat < 0x80
  · obtain ⟨a, hbytes, _⟩ := utf8EncodeChar_one c hone
    rw [hbytes] at hmem ⊢
    rw [List.mem_singleton.1 hmem]
  by_cases htwo : c.toNat < 0x800
  · obtain ⟨a, a₁, hbytes, ha, ha₁⟩ := utf8EncodeChar_two c (by omega) htwo
    simp only [hbytes, List.mem_cons, List.not_mem_nil, or_false] at hmem
    rcases hmem with rfl | rfl <;> omega
  by_cases hthree : c.toNat < 0x10000
  · obtain ⟨a, a₁, a₂, hbytes, ha, ha₁, ha₂⟩ := utf8EncodeChar_three c (by omega) hthree
    simp only [hbytes, List.mem_cons, List.not_mem_nil, or_false] at hmem
    rcases hmem with rfl | rfl | rfl <;> omega
  · obtain ⟨a, a₁, a₂, a₃, hbytes, ha, ha₁, ha₂, ha₃⟩ := utf8EncodeChar_four c (by omega)
    simp only [hbytes, List.mem_cons, List.not_mem_nil, or_false] at hmem
    rcases hmem with rfl | rfl | rfl | rfl <;> omega

theorem utf8EncodeChar_of_toNat
    {c : Char} {b : UInt8}
    (hb : b < 0x80)
    (h : c.toNat = b.toNat) :
    String.utf8EncodeChar c = [b] := by
  have hlt : b.toNat < 0x80 := UInt8.lt_iff_toNat_lt.1 hb
  obtain ⟨a, hbytes, ha⟩ := utf8EncodeChar_one c (by omega)
  rw [hbytes, UInt8.toNat_inj.1 (ha.trans h)]

/-- A byte of ASCII stands in the bytes of its own character only. -/
theorem eq_of_mem_utf8EncodeChar
    {c d : Char} {b : UInt8}
    (hb : b < 0x80)
    (hd : d.toNat = b.toNat)
    (h : b ∈ String.utf8EncodeChar c) :
    c = d := by
  have hlt : b.toNat < 0x80 := UInt8.lt_iff_toNat_lt.1 hb
  have hbytes := utf8EncodeChar_eq_of_mem h hb
  rcases toNat_of_utf8EncodeChar hbytes with hsame | hlarge
  · exact Char.toNat_inj.1 (hsame.symm.trans hd.symm)
  · omega

end Glyph

/-! ## Texts and their glyphs -/

theorem glyphsFrom_eq_glyphs_drop
    (n : Nat) (s : Bytes) :
    glyphsFrom n s = glyphs (s.drop n) := by
  induction s generalizing n with
  | nil =>
      cases n <;> rfl
  | cons b rest ih =>
      cases n with
      | zero =>
          rfl
      | succ n =>
          exact ih n

/-- Reading goes on behind the bytes of the first glyph. -/
theorem glyphs_of_head
    {b : UInt8} {rest tail : Bytes}
    (h : b :: rest = (Glyph.head b rest).bytes ++ tail) :
    glyphs (b :: rest) = Glyph.head b rest :: glyphs tail := by
  have hstep : glyphs (b :: rest) =
      Glyph.head b rest :: glyphsFrom ((Glyph.head b rest).bytes.length - 1) rest := rfl
  rw [hstep, glyphsFrom_eq_glyphs_drop]
  generalize Glyph.head b rest = g at h
  cases hbytes : g.bytes with
  | nil =>
      exact absurd hbytes g.bytes_ne_nil
  | cons a bytes =>
      rw [hbytes] at h
      obtain ⟨-, rfl⟩ := List.cons.inj h
      simp

theorem glyphs_char_append
    (c : Char) (tail : Bytes) :
    glyphs (String.utf8EncodeChar c ++ tail) = .char c :: glyphs tail := by
  cases hs : String.utf8EncodeChar c ++ tail with
  | nil =>
      exact absurd (List.append_eq_nil_iff.1 hs).1 (Glyph.bytes_ne_nil (.char c))
  | cons b rest =>
      have hhead := Glyph.head_of_utf8EncodeChar hs
      rw [glyphs_of_head (by rw [hhead]; exact hs.symm), hhead]

theorem glyphs_encodeChars_append
    (cs : List Char) (tail : Bytes) :
    glyphs (encodeChars cs ++ tail) = cs.map Glyph.char ++ glyphs tail := by
  induction cs with
  | nil =>
      rfl
  | cons c cs ih =>
      rw [encodeChars, List.flatMap_cons, List.append_assoc, glyphs_char_append]
      exact congrArg (Glyph.char c :: ·) ih

/-- A text is made of the bytes of its glyphs. -/
theorem unread_glyphs
    (s : Bytes) :
    unread (glyphs s) = s := by
  induction hn : s.length using Nat.strongRecOn generalizing s with
  | ind n ih =>
      cases s with
      | nil =>
          rfl
      | cons b rest =>
          obtain ⟨tail, htail⟩ := Glyph.exists_append_of_head b rest
          have hlength := congrArg List.length htail
          have hpos := List.length_pos_iff.2 (Glyph.bytes_ne_nil (Glyph.head b rest))
          rw [List.length_append] at hlength
          rw [glyphs_of_head htail, unread, List.flatMap_cons]
          have hrest := ih tail.length (by omega) tail rfl
          rw [unread] at hrest
          rw [hrest, ← htail]

theorem glyphs_encodeChars
    (cs : List Char) :
    glyphs (encodeChars cs) = cs.map Glyph.char := by
  have h := glyphs_encodeChars_append cs []
  rwa [List.append_nil, show glyphs [] = [] from rfl, List.append_nil] at h

theorem shownChars_encodeChars
    (cs : List Char) :
    shownChars (encodeChars cs) = cs := by
  rw [shownChars, glyphs_encodeChars, List.map_map]
  exact List.map_id cs

theorem glyphs_cons_of_ascii
    {b : UInt8}
    (hb : b < 0x80)
    (t : Bytes) :
    glyphs (b :: t) = .char (Char.ofNat b.toNat) :: glyphs t := by
  have hread := glyphs_char_append (Char.ofNat b.toNat) t
  rwa [Glyph.utf8EncodeChar_ofNat hb] at hread

theorem glyphs_cons_of_stray
    {b : UInt8} {rest : Bytes}
    (h : Glyph.head b rest = .stray b) :
    glyphs (b :: rest) = .stray b :: glyphs rest := by
  rw [glyphs_of_head (by rw [h]; rfl), h]

/-- A character that is read in front of a byte of ASCII ends in front of it. -/
theorem exists_append_of_char
    {c : Char} {s t tail : Bytes} {b : UInt8}
    (hb : b < 0x80)
    (hs : s ≠ [])
    (h : s ++ b :: t = String.utf8EncodeChar c ++ tail) :
    ∃ front, s = String.utf8EncodeChar c ++ front ∧ tail = front ++ b :: t := by
  rcases List.append_eq_append_iff.1 h with ⟨front, hc, htail⟩ | ⟨front, hs', htail⟩
  · cases front with
    | nil =>
        rw [List.append_nil] at hc
        exact ⟨[], by rw [hc, List.append_nil], htail.symm⟩
    | cons a front =>
        obtain ⟨rfl, -⟩ := List.cons.inj htail
        have hsingle := Glyph.utf8EncodeChar_eq_of_mem (c := c) (b := b) (by rw [hc]; simp) hb
        have hlength := congrArg List.length (hc.symm.trans hsingle)
        have hpos := List.length_pos_iff.2 hs
        simp only [List.length_append, List.length_cons, List.length_nil] at hlength
        omega
  · exact ⟨front, hs', htail⟩

/-- A text is read in parts around a byte of ASCII. -/
theorem glyphs_append_cons
    {b : UInt8}
    (hb : b < 0x80)
    (s t : Bytes) :
    glyphs (s ++ b :: t) = glyphs s ++ .char (Char.ofNat b.toNat) :: glyphs t := by
  induction hn : s.length using Nat.strongRecOn generalizing s with
  | ind n ih =>
      cases s with
      | nil =>
          exact glyphs_cons_of_ascii hb t
      | cons a s =>
          rw [List.length_cons] at hn
          obtain ⟨tail, htail⟩ := Glyph.exists_append_of_head a (s ++ b :: t)
          cases hhead : Glyph.head a (s ++ b :: t) with
          | char c =>
              rw [hhead] at htail
              obtain ⟨front, hfront, rfl⟩ :=
                exists_append_of_char hb (List.cons_ne_nil a s) htail
              have hlength := congrArg List.length hfront
              have hpos := List.length_pos_iff.2 (Glyph.bytes_ne_nil (.char c))
              simp only [Glyph.bytes, List.length_append, List.length_cons] at hlength hpos
              rw [hfront, List.append_assoc, glyphs_char_append, glyphs_char_append,
                ih front.length (by omega) front rfl, List.cons_append]
          | stray x =>
              obtain rfl := Glyph.eq_of_head_eq_stray hhead
              -- A character at the front of the part alone would also be read in the whole text.
              have hpart : Glyph.head x s = .stray x := by
                cases hpart : Glyph.head x s with
                | char c =>
                    obtain ⟨rest, hrest⟩ := Glyph.exists_append_of_head x s
                    rw [hpart] at hrest
                    have hwhole : String.utf8EncodeChar c ++ (rest ++ b :: t) =
                        x :: (s ++ b :: t) := by
                      rw [← List.append_assoc]
                      exact congrArg (· ++ b :: t) hrest.symm
                    rw [Glyph.head_of_utf8EncodeChar hwhole] at hhead
                    cases hhead
                | stray y =>
                    rw [Glyph.eq_of_head_eq_stray hpart]
              rw [List.cons_append, glyphs_cons_of_stray hhead, glyphs_cons_of_stray hpart,
                ih s.length (by omega) s rfl, List.cons_append]

/-! ## Well-formed texts -/

/-- The well-formed texts are the encodings of characters. -/
theorem isUtf8_iff
    {s : Bytes} :
    isUtf8 s = true ↔ ∃ cs, s = encodeChars cs := by
  constructor
  · intro h
    have hchar : ∀ g ∈ glyphs s, ∃ c, g = Glyph.char c := by
      intro g hg
      have hread := List.all_eq_true.1 h g hg
      cases g with
      | char c =>
          exact ⟨c, rfl⟩
      | stray b =>
          cases hread
    have hchars : ∀ gs : List Glyph, (∀ g ∈ gs, ∃ c, g = Glyph.char c) →
        ∃ cs, unread gs = encodeChars cs := by
      intro gs
      induction gs with
      | nil =>
          exact fun _ => ⟨[], rfl⟩
      | cons g gs ih =>
          intro hall
          obtain ⟨⟨c, rfl⟩, hrest⟩ := List.forall_mem_cons.1 hall
          obtain ⟨cs, hcs⟩ := ih hrest
          exact ⟨c :: cs, congrArg (String.utf8EncodeChar c ++ ·) hcs⟩
    obtain ⟨cs, hcs⟩ := hchars _ hchar
    exact ⟨cs, (unread_glyphs s).symm.trans hcs⟩
  · rintro ⟨cs, rfl⟩
    rw [isUtf8, glyphs_encodeChars, List.all_map]
    exact List.all_eq_true.2 fun _ _ => rfl

theorem isUtf8_encodeChars
    (cs : List Char) :
    isUtf8 (encodeChars cs) = true :=
  isUtf8_iff.2 ⟨cs, rfl⟩

theorem isUtf8_utf8
    (s : String) :
    isUtf8 (utf8 s) = true :=
  isUtf8_encodeChars s.toList

/-- The glyphs behind a well-formed text do not depend on it. -/
theorem glyphs_append
    {s : Bytes}
    (hs : isUtf8 s = true)
    (t : Bytes) :
    glyphs (s ++ t) = glyphs s ++ glyphs t := by
  obtain ⟨cs, rfl⟩ := isUtf8_iff.1 hs
  rw [glyphs_encodeChars_append, glyphs_encodeChars]

theorem isUtf8_append
    {s t : Bytes}
    (hs : isUtf8 s = true)
    (ht : isUtf8 t = true) :
    isUtf8 (s ++ t) = true := by
  rw [isUtf8, glyphs_append hs, List.all_append, Bool.and_eq_true]
  exact ⟨hs, ht⟩

theorem isUtf8_singleton
    {b : UInt8}
    (hb : b < 0x80) :
    isUtf8 [b] = true :=
  isUtf8_iff.2 ⟨[Char.ofNat b.toNat], by simp [encodeChars, Glyph.utf8EncodeChar_ofNat hb]⟩

theorem isUtf8_of_ascii
    {s : Bytes}
    (h : ∀ b ∈ s, b < 0x80) :
    isUtf8 s = true := by
  induction s with
  | nil =>
      rfl
  | cons b rest ih =>
      have hfirst := isUtf8_singleton (h b List.mem_cons_self)
      exact isUtf8_append hfirst (ih fun c hc => h c (List.mem_cons_of_mem b hc))

/-- A well-formed text is well-formed before and after each of its bytes of ASCII. -/
theorem isUtf8_append_cons_iff
    {s t : Bytes} {b : UInt8}
    (hb : b < 0x80) :
    isUtf8 (s ++ b :: t) = true ↔ isUtf8 s = true ∧ isUtf8 t = true := by
  rw [isUtf8, glyphs_append_cons hb, List.all_append, List.all_cons, Bool.and_eq_true,
    Bool.and_eq_true]
  constructor
  · rintro ⟨hs, -, ht⟩
    exact ⟨hs, ht⟩
  · rintro ⟨hs, ht⟩
    exact ⟨hs, rfl, ht⟩

/-! ## Parts of well-formed texts -/

theorem isUtf8_of_append
    {s t : Bytes}
    (h : isUtf8 (s ++ t) = true)
    (ht : ∀ b ∈ t.head?, b < 0x80) :
    isUtf8 s = true ∧ isUtf8 t = true := by
  cases t with
  | nil =>
      rw [List.append_nil] at h
      exact ⟨h, rfl⟩
  | cons b t =>
      have hb := ht b rfl
      obtain ⟨hs, hrest⟩ := (isUtf8_append_cons_iff hb).1 h
      exact ⟨hs, isUtf8_append (isUtf8_singleton hb) hrest⟩

/-- A text that ends a well-formed one. -/
def EndsUtf8 (s : Bytes) : Prop := ∃ front, isUtf8 (front ++ s) = true

namespace EndsUtf8

theorem of_isUtf8
    {s : Bytes}
    (h : isUtf8 s = true) :
    EndsUtf8 s :=
  ⟨[], h⟩

theorem suffix
    {s t : Bytes}
    (h : EndsUtf8 s)
    (ht : t <:+ s) :
    EndsUtf8 t := by
  obtain ⟨front, hfront⟩ := h
  obtain ⟨more, rfl⟩ := ht
  exact ⟨front ++ more, by rwa [List.append_assoc]⟩

theorem tail
    {b : UInt8} {s : Bytes}
    (h : EndsUtf8 (b :: s)) :
    EndsUtf8 s :=
  h.suffix (List.suffix_cons b s)

theorem isUtf8_tail
    {b : UInt8} {s : Bytes}
    (h : EndsUtf8 (b :: s))
    (hb : b < 0x80) :
    isUtf8 s = true := by
  obtain ⟨front, hfront⟩ := h
  exact ((isUtf8_append_cons_iff hb).1 hfront).2

end EndsUtf8

theorem isUtf8_tail
    {b : UInt8} {s : Bytes}
    (h : isUtf8 (b :: s) = true)
    (hb : b < 0x80) :
    isUtf8 s = true :=
  (EndsUtf8.of_isUtf8 h).isUtf8_tail hb

/-- Bytes of ASCII may be replaced by others. -/
theorem isUtf8_append_map
    {f : UInt8 → UInt8}
    (hascii : ∀ b, b < 0x80 → f b < 0x80)
    (hother : ∀ b, ¬ b < 0x80 → f b = b)
    (front s : Bytes)
    (h : isUtf8 (front ++ s) = true) :
    isUtf8 (front ++ s.map f) = true := by
  induction s generalizing front with
  | nil =>
      exact h
  | cons b s ih =>
      by_cases hb : b < 0x80
      · obtain ⟨hfront, hs⟩ := (isUtf8_append_cons_iff hb).1 h
        have hrest := ih [] hs
        exact (isUtf8_append_cons_iff (hascii b hb)).2 ⟨hfront, hrest⟩
      · have hrest := ih (front ++ [b]) (by simpa using h)
        simpa [hother b hb] using hrest

theorem isUtf8_map_toLower
    {s : Bytes}
    (h : isUtf8 s = true) :
    isUtf8 (s.map Ascii.toLower) = true := by
  have hascii : ∀ b, b < 0x80 → Ascii.toLower b < 0x80 := by
    intro b hb
    grind [Ascii.toLower]
  have hother : ∀ b, ¬ b < 0x80 → Ascii.toLower b = b := by
    intro b hb
    grind [Ascii.toLower]
  exact isUtf8_append_map hascii hother [] s h

theorem isUtf8_of_ascii_append
    {front s : Bytes}
    (hfront : ∀ b ∈ front, b < 0x80)
    (h : isUtf8 (front ++ s) = true) :
    isUtf8 s = true := by
  induction front with
  | nil =>
      exact h
  | cons b front ih =>
      exact ih (fun c hc => hfront c (List.mem_cons_of_mem b hc))
        (isUtf8_tail h (hfront b List.mem_cons_self))

end Stencil
