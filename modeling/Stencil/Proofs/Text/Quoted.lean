import Mathlib.Algebra.Group.Nat.Defs
import Stencil.Proofs.Text.Utf8
import Stencil.Text.Quoted

/-!
# Quoted texts read back

Every glyph of a byte string is written between quotes as one unit: the bytes of a printable
character, or an escape.  A unit is read back as the bytes of its glyph, whatever follows it.

Results: `unquote?_quote` for whole texts, and `neutral_quoteGlyph` on the units that read the same
between single quotes.
-/

namespace Stencil

/-! ## Hexadecimal numerals -/

theorem Ascii.hexValue?_hexDigit
    {d : Nat}
    (h : d < 16) :
    Ascii.hexValue? (Ascii.hexDigit d) = some d := by
  have hall : ∀ d : Fin 16, Ascii.hexValue? (Ascii.hexDigit d) = some d.val := by decide
  exact hall ⟨d, h⟩

namespace Bytes

theorem length_hex
    (w n : Nat) :
    (hex w n).length = w := by
  induction w generalizing n with
  | zero =>
      rfl
  | succ w ih =>
      rw [hex, List.length_append, ih, List.length_singleton]

theorem exists_of_mem_hex
    {w n : Nat} {b : UInt8}
    (h : b ∈ hex w n) :
    ∃ d, d < 16 ∧ b = Ascii.hexDigit d := by
  induction w generalizing n with
  | zero =>
      cases h
  | succ w ih =>
      rw [hex, List.mem_append, List.mem_singleton] at h
      rcases h with hfront | rfl
      · exact ih hfront
      · exact ⟨n % 16, Nat.mod_lt n (by decide), rfl⟩

end Bytes

namespace Text

theorem foldl_hex
    {w n : Nat}
    (h : n < 16 ^ w)
    (start : Nat) :
    (Bytes.hex w n).foldl (fun acc b => do return (← acc) * 16 + (← Ascii.hexValue? b))
      (some start) = some (start * 16 ^ w + n) := by
  induction w generalizing n with
  | zero =>
      obtain rfl : n = 0 := by omega
      simp [Bytes.hex]
  | succ w ih =>
      have hfront : n / 16 < 16 ^ w := by
        rw [Nat.pow_succ] at h
        omega
      have hdigit := Ascii.hexValue?_hexDigit (Nat.mod_lt n (by decide : 16 > 0))
      have hsum : (start * 16 ^ w + n / 16) * 16 + n % 16 = start * 16 ^ (w + 1) + n := by
        rw [Nat.pow_succ, Nat.add_mul, Nat.mul_assoc]
        omega
      rw [Bytes.hex, List.foldl_append, ih hfront, List.foldl_cons, List.foldl_nil, hdigit]
      exact congrArg some hsum

/-- A numeral of the right width is read back. -/
theorem hexNumber?_hex
    {w n : Nat}
    (h : n < 16 ^ w)
    (rest : Bytes) :
    hexNumber? w (Bytes.hex w n ++ rest) = some n := by
  have hlength := Bytes.length_hex w n
  have hlong : ¬ (Bytes.hex w n ++ rest).length < w := by
    rw [List.length_append, hlength]
    omega
  have htake : (Bytes.hex w n ++ rest).take w = Bytes.hex w n := List.take_left' hlength
  rw [hexNumber?, if_neg hlong, htake, foldl_hex h]
  simp

/-! ## Units -/

/-- A unit between quotes that reads as some bytes, whatever follows it. -/
def ReadsAs (unit out : Bytes) : Prop :=
  ∃ b body, unit = b :: body ∧ b ≠ Ascii.quote ∧
    ∀ rest, readUnit? b (body ++ rest) = some (out, body.length)

theorem ReadsAs.ite
    {p : Prop} [Decidable p] {s t out : Bytes}
    (hs : p → ReadsAs s out)
    (ht : ¬ p → ReadsAs t out) :
    ReadsAs (if p then s else t) out := by
  split
  · next h =>
      exact hs h
  · next h =>
      exact ht h

/-- A character that shows as itself. -/
theorem readsAs_printable
    {c : Char}
    (hquote : c ≠ '"')
    (hbackslash : c ≠ '\\')
    (hprintable : isPrintable c = true) :
    ReadsAs (String.utf8EncodeChar c) (String.utf8EncodeChar c) := by
  have hnewline : c ≠ '\n' := by
    rintro rfl
    exact absurd hprintable (by decide +kernel)
  cases hbytes : String.utf8EncodeChar c with
  | nil =>
      exact absurd hbytes (Glyph.bytes_ne_nil (.char c))
  | cons b body =>
      have hmem : b ∈ String.utf8EncodeChar c := hbytes ▸ List.mem_cons_self
      have hb : b ≠ Ascii.quote := by
        rintro rfl
        exact hquote (Glyph.eq_of_mem_utf8EncodeChar (by decide) rfl hmem)
      refine ⟨b, body, rfl, hb, fun rest => ?_⟩
      rw [readUnit?, if_neg, if_neg]
      · split
        · next hascii =>
            have hsingle := Glyph.utf8EncodeChar_eq_of_mem hmem hascii
            rw [hbytes] at hsingle
            obtain ⟨-, rfl⟩ := List.cons.inj hsingle
            rfl
        · have hhead : Glyph.head b (body ++ rest) = .char c :=
            Glyph.head_of_utf8EncodeChar (congrArg (· ++ rest) hbytes)
          simp only [hhead, Glyph.shown, Glyph.bytes, hbytes, List.length_cons,
            Nat.add_sub_cancel]
      · rintro rfl
        exact hbackslash (Glyph.eq_of_mem_utf8EncodeChar (by decide) rfl hmem)
      · rintro rfl
        exact hnewline (Glyph.eq_of_mem_utf8EncodeChar (by decide) rfl hmem)

/-- A control character with an escape of its own. -/
theorem readsAs_letter
    {c : Char} {letter : UInt8}
    (b : UInt8)
    (hb : b < 0x80)
    (hc : c.toNat = b.toNat)
    (h : ∀ rest, readEscape? (letter :: rest) = some ([b], 1)) :
    ReadsAs [Ascii.backslash, letter] (String.utf8EncodeChar c) := by
  rw [Glyph.utf8EncodeChar_of_toNat hb hc]
  exact ⟨Ascii.backslash, [letter], rfl, by decide, h⟩

theorem readsAs_byte
    (b : UInt8) :
    ReadsAs (utf8 "\\x" ++ Bytes.hex 2 b.toNat) [b] := by
  refine ⟨Ascii.backslash, 0x78 :: Bytes.hex 2 b.toNat, rfl, by decide, fun rest => ?_⟩
  have hread : readEscape? (0x78 :: (Bytes.hex 2 b.toNat ++ rest)) =
      (hexNumber? 2 (Bytes.hex 2 b.toNat ++ rest)).map fun v => ([v.toUInt8], 3) := rfl
  rw [List.cons_append, readUnit?, if_neg (by decide), if_pos rfl, hread,
    hexNumber?_hex b.toNat_lt, List.length_cons, Bytes.length_hex]
  simp

theorem readsAs_escapeChar
    (c : Char) :
    ReadsAs (escapeChar c) (String.utf8EncodeChar c) := by
  have hvalid : c.toNat < 0xd800 ∨ (0xdfff < c.toNat ∧ c.toNat < 0x110000) := c.valid
  have hnumber : ∀ w, c.toNat < 16 ^ w → ∀ rest,
      (do let v ← hexNumber? w (Bytes.hex w c.toNat ++ rest)
          if h : v.isValidChar then some (String.utf8EncodeChar (Char.ofNatAux v h), w + 1)
          else none) = some (String.utf8EncodeChar c, (Bytes.hex w c.toNat).length + 1) := by
    intro w h rest
    rw [hexNumber?_hex h, Bytes.length_hex]
    exact dif_pos c.valid
  refine .ite (fun hbell => readsAs_letter 0x07 (by decide) hbell fun _ => rfl) fun _ => ?_
  refine .ite (fun hback => readsAs_letter 0x08 (by decide) hback fun _ => rfl) fun _ => ?_
  refine .ite (fun hfeed => readsAs_letter 0x0c (by decide) hfeed fun _ => rfl) fun _ => ?_
  refine .ite (fun hline => readsAs_letter 0x0a (by decide) hline fun _ => rfl) fun _ => ?_
  refine .ite (fun hreturn => readsAs_letter 0x0d (by decide) hreturn fun _ => rfl) fun _ => ?_
  refine .ite (fun htab => readsAs_letter 0x09 (by decide) htab fun _ => rfl) fun _ => ?_
  refine .ite (fun hvertical => readsAs_letter 0x0b (by decide) hvertical fun _ => rfl) fun _ => ?_
  refine .ite (fun hbyte => ?_) fun _ => .ite (fun hshort => ?_) fun hlong => ?_
  · obtain ⟨b, hbytes, hb⟩ := Glyph.utf8EncodeChar_one c (by omega)
    rw [hbytes, ← hb]
    exact readsAs_byte b
  · exact ⟨Ascii.backslash, 0x75 :: Bytes.hex 4 c.toNat, rfl, by decide, hnumber 4 (by omega)⟩
  · exact ⟨Ascii.backslash, 0x55 :: Bytes.hex 8 c.toNat, rfl, by decide, hnumber 8 (by omega)⟩

theorem readsAs_quoteGlyph
    (g : Glyph) :
    ReadsAs (quoteGlyph g) g.bytes := by
  cases g with
  | stray b =>
      exact readsAs_byte b
  | char c =>
      refine .ite (fun hspecial => ?_) fun hspecial => .ite (fun hprintable => ?_) fun _ => ?_
      · rcases hspecial with rfl | rfl
        · exact ⟨Ascii.backslash, [Ascii.quote], rfl, by decide, fun _ => rfl⟩
        · exact ⟨Ascii.backslash, [Ascii.backslash], rfl, by decide, fun _ => rfl⟩
      · rw [not_or] at hspecial
        exact readsAs_printable hspecial.1 hspecial.2 hprintable
      · exact readsAs_escapeChar c

/-! ## Whole texts -/

theorem readQuoted?_length
    (front rest : Bytes) :
    readQuoted? front.length (front ++ rest) = readQuoted? 0 rest := by
  induction front with
  | nil =>
      rfl
  | cons _ front ih =>
      exact ih

theorem ReadsAs.readQuoted?
    {unit out : Bytes}
    (h : ReadsAs unit out)
    (rest : Bytes) :
    readQuoted? 0 (unit ++ rest) = (readQuoted? 0 rest).map (out ++ ·) := by
  obtain ⟨b, body, rfl, hb, hunit⟩ := h
  rw [List.cons_append, Text.readQuoted?, if_neg hb]
  simp only [hunit rest, readQuoted?_length]

theorem readQuoted?_flatMap_quoteGlyph
    (gs : List Glyph) :
    readQuoted? 0 (gs.flatMap quoteGlyph ++ [Ascii.quote]) = some (unread gs) := by
  induction gs with
  | nil =>
      rfl
  | cons g gs ih =>
      rw [List.flatMap_cons, List.append_assoc, (readsAs_quoteGlyph g).readQuoted?, ih]
      rfl

/-- Every byte string reads back from its quoted form. -/
theorem unquote?_quote
    (s : Bytes) :
    unquote? (quote s) = some s := by
  calc
    unquote? (quote s) = readQuoted? 0 ((glyphs s).flatMap quoteGlyph ++ [Ascii.quote]) := rfl
    _ = some (unread (glyphs s)) := readQuoted?_flatMap_quoteGlyph (glyphs s)
    _ = some s := by rw [unread_glyphs]

/-! ## Units between quotes of either kind -/

/-- Bytes that mean themselves between quotes of either kind. -/
def Quiet (s : Bytes) : Prop :=
  ∀ b ∈ s, b ≠ Ascii.backslash ∧ b ≠ Ascii.quote ∧ b ≠ Ascii.apostrophe

/-- A unit that neither kind of quotes writes in a way of its own. -/
inductive Neutral : Bytes → Prop
  | plain {s : Bytes} (quiet : Quiet s) : Neutral s
  | escape {b : UInt8} {body : Bytes} (notQuote : b ≠ Ascii.quote)
      (notApostrophe : b ≠ Ascii.apostrophe) (quiet : Quiet body) :
      Neutral (Ascii.backslash :: b :: body)

theorem Neutral.ite
    {p : Prop} [Decidable p] {s t : Bytes}
    (hs : Neutral s)
    (ht : Neutral t) :
    Neutral (if p then s else t) := by
  split
  · exact hs
  · exact ht

theorem quiet_nil : Quiet [] := fun _ h => absurd h List.not_mem_nil

theorem quiet_hex
    (w n : Nat) :
    Quiet (Bytes.hex w n) := by
  intro b hb
  obtain ⟨d, hd, rfl⟩ := Bytes.exists_of_mem_hex hb
  have hall : ∀ d : Fin 16, Ascii.hexDigit d ≠ Ascii.backslash ∧ Ascii.hexDigit d ≠ Ascii.quote ∧
      Ascii.hexDigit d ≠ Ascii.apostrophe := by decide
  exact hall ⟨d, hd⟩

theorem neutral_escapeChar
    (c : Char) :
    Neutral (escapeChar c) := by
  unfold escapeChar
  iterate 7 refine .ite (.escape (by decide) (by decide) quiet_nil) ?_
  iterate 2 refine .ite (.escape (by decide) (by decide) (quiet_hex _ _)) ?_
  exact .escape (by decide) (by decide) (quiet_hex _ _)

theorem neutral_quoteGlyph
    {g : Glyph}
    (hquote : g ≠ .char '"')
    (hapostrophe : g ≠ .char '\x27') :
    Neutral (quoteGlyph g) := by
  cases g with
  | stray b =>
      exact .escape (by decide) (by decide) (quiet_hex _ _)
  | char c =>
      rw [quoteGlyph]
      split
      · next hspecial =>
          rcases hspecial with rfl | rfl
          · exact absurd rfl hquote
          · exact .escape (by decide) (by decide) quiet_nil
      · next hspecial =>
          rw [not_or] at hspecial
          refine .ite (.plain fun b hb => ⟨?_, ?_, ?_⟩) (neutral_escapeChar c)
          · rintro rfl
            exact hspecial.2 (Glyph.eq_of_mem_utf8EncodeChar (by decide) rfl hb)
          · rintro rfl
            exact hspecial.1 (Glyph.eq_of_mem_utf8EncodeChar (by decide) rfl hb)
          · rintro rfl
            exact hapostrophe (congrArg _ (Glyph.eq_of_mem_utf8EncodeChar (by decide) rfl hb))

theorem quoteGlyph_quote : quoteGlyph (.char '"') = [Ascii.backslash, Ascii.quote] := rfl

theorem quoteGlyph_apostrophe : quoteGlyph (.char '\x27') = [Ascii.apostrophe] := by
  decide +kernel

/-- How one glyph stands between single quotes: a double quote as it is, a single quote escaped and
any other glyph as between double quotes. -/
def singleGlyph (g : Glyph) : Bytes :=
  if g = .char '"' then [Ascii.quote]
  else if g = .char '\x27' then [Ascii.backslash, Ascii.apostrophe]
  else quoteGlyph g

/-- A byte string in single quotes. -/
def quoteSingle (s : Bytes) : Bytes :=
  Ascii.apostrophe :: (glyphs s).flatMap singleGlyph ++ [Ascii.apostrophe]

end Text
end Stencil
