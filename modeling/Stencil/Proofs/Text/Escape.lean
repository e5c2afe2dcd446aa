import Stencil.Text.Entity
import Stencil.Text.Escape

/-!
# Escaped text

What escaping makes of a text.  Nothing in the result opens or closes a tag or ends a quoted value,
two opening braces stand next to each other only where they did before, and decoding the references
gives the text back.
-/

namespace Stencil

/-! ## Reading the references that escaping writes -/

namespace Entity

theorem decodeFrom_append
    (place : Place) (front s : Bytes) :
    decodeFrom place front.length (front ++ s) = decodeFrom place 0 s := by
  induction front with
  | nil =>
      rfl
  | cons b front ih =>
      exact ih

/-- A complete name is read up to its semicolon, whatever follows. -/
theorem reference?_of_named
    {place : Place} (b : UInt8) (letters : Bytes) {text : Bytes}
    (hhash : b ≠ Ascii.hash)
    (hletters : ∀ c ∈ b :: letters, isNameByte c = true)
    (hnamed : named? (b :: letters ++ [Ascii.semicolon]) = some text)
    (s : Bytes) :
    reference? place (b :: letters ++ Ascii.semicolon :: s) = some (text, letters.length + 2) := by
  have hstop : isNameByte Ascii.semicolon = false := by decide
  have htake : (b :: letters ++ Ascii.semicolon :: s).takeWhile isNameByte = b :: letters := by
    rw [List.takeWhile_append_of_pos hletters, List.takeWhile_cons_of_neg (by simp [hstop]),
      List.append_nil]
  rw [reference?]
  · simp only [htake, List.drop_left, List.head?_cons, if_true, hnamed]
    simp
  · intro h
    cases h
  · intro rest h
    cases h
    exact hhash rfl

/-- A decimal number of at least two digits is read up to its semicolon, whatever follows. -/
theorem reference?_of_digits
    {place : Place} {c d : UInt8}
    (hc : Ascii.isDigit c = true)
    (hd : Ascii.isDigit d = true)
    (s : Bytes) :
    reference? place (Ascii.hash :: c :: d :: Ascii.semicolon :: s) =
      some (numbered (Ascii.digitValue c * 10 + Ascii.digitValue d), 4) := by
  have hstop : Ascii.isDigit Ascii.semicolon = false := by decide
  have hhex : c ≠ 0x78 ∧ c ≠ 0x58 := by
    constructor <;>
      · rintro rfl
        cases hc
  have hnumeric : numeric? (c :: d :: Ascii.semicolon :: s) =
      some (numbered (Ascii.digitValue c * 10 + Ascii.digitValue d), 5) := by
    simp [numeric?, hhex, hc, hd, hstop, numericLength, Ascii.hexValue?, Ascii.digitValue]
  change (numeric? (c :: d :: Ascii.semicolon :: s)).map _ = _
  rw [hnumeric]
  rfl

end Entity

/-! ## Escaping -/

namespace Text

/-- The bytes that do not stand for themselves in markup. -/
def escaped : Bytes :=
  [0, Ascii.quote, Ascii.apostrophe, Ascii.ampersand, Ascii.less, Ascii.greater]

theorem escapeByte_of_not_mem
    {b : UInt8}
    (hb : b ∉ escaped) :
    escapeByte b = [b] := by
  simp only [escaped, List.mem_cons, List.not_mem_nil, or_false, not_or] at hb
  obtain ⟨hzero, hquote, hapostrophe, hampersand, hless, hgreater⟩ := hb
  simp [escapeByte, hzero, hquote, hapostrophe, hampersand, hless, hgreater]

/-- A text that cannot open or close a tag and cannot end a quoted value. -/
def Inert (s : Bytes) : Prop :=
  ∀ b ∈ s, b ≠ Ascii.less ∧ b ≠ Ascii.greater ∧ b ≠ Ascii.quote ∧ b ≠ Ascii.apostrophe

theorem inert_escapeByte
    (b : UInt8) :
    Inert (escapeByte b) := by
  by_cases hb : b ∈ escaped
  · have hreferences : ∀ b ∈ escaped, ∀ c ∈ escapeByte b,
        c ≠ Ascii.less ∧ c ≠ Ascii.greater ∧ c ≠ Ascii.quote ∧ c ≠ Ascii.apostrophe := by
      decide +kernel
    exact hreferences b hb
  · rw [escapeByte_of_not_mem hb]
    intro c hc
    obtain rfl := List.mem_singleton.1 hc
    refine ⟨?_, ?_, ?_, ?_⟩ <;>
      · rintro rfl
        exact hb (by decide)

theorem inert_escapeHtml
    (s : Bytes) :
    Inert (escapeHtml s) := by
  intro b hb
  obtain ⟨c, _, hc⟩ := List.mem_flatMap.1 hb
  exact inert_escapeByte c b hc

/-- A byte that is neither escaped nor part of a reference comes from the text. -/
theorem mem_of_mem_escapeHtml
    {b : UInt8}
    (hb : ∀ c ∈ escaped, b ∉ escapeByte c)
    {s : Bytes}
    (h : b ∈ escapeHtml s) :
    b ∈ s := by
  obtain ⟨c, hc, hmem⟩ := List.mem_flatMap.1 h
  by_cases hescaped : c ∈ escaped
  · exact absurd hmem (hb c hescaped)
  · rw [escapeByte_of_not_mem hescaped] at hmem
    obtain rfl := List.mem_singleton.1 hmem
    exact hc

theorem escapeByte_ne_nil
    (b : UInt8) :
    escapeByte b ≠ [] := by
  by_cases hb : b ∈ escaped
  · have hreferences : ∀ b ∈ escaped, escapeByte b ≠ [] := by decide +kernel
    exact hreferences b hb
  · rw [escapeByte_of_not_mem hb]
    exact List.cons_ne_nil b []

theorem escapeHtml_ne_nil
    {s : Bytes}
    (hs : s ≠ []) :
    escapeHtml s ≠ [] := by
  obtain ⟨b, rest, rfl⟩ := List.exists_cons_of_ne_nil hs
  exact List.append_ne_nil_of_left_ne_nil (escapeByte_ne_nil b) (escapeHtml rest)

theorem decodeFrom_escapeByte
    (place : Entity.Place) {b : UInt8}
    (hb : b ≠ 0)
    (s : Bytes) :
    Entity.decodeFrom place 0 (escapeByte b ++ s) = b :: Entity.decodeFrom place 0 s := by
  by_cases hmem : b ∈ escaped
  · -- Every reference begins with an ampersand and is decoded whole.
    have hreference : ∃ front, escapeByte b = Ascii.ampersand :: front ∧
        Entity.reference? place (front ++ s) = some ([b], front.length) := by
      simp only [escaped, List.mem_cons, List.not_mem_nil, or_false] at hmem
      rcases hmem with rfl | rfl | rfl | rfl | rfl | rfl
      · exact absurd rfl hb
      · exact ⟨utf8 "#34;", by decide, Entity.reference?_of_digits (by decide) (by decide) s⟩
      · exact ⟨utf8 "#39;", by decide, Entity.reference?_of_digits (by decide) (by decide) s⟩
      · exact ⟨utf8 "amp;", by decide,
          Entity.reference?_of_named 0x61 (utf8 "mp") (by decide)
            (by decide +kernel) (by decide +kernel) s⟩
      · exact ⟨utf8 "lt;", by decide,
          Entity.reference?_of_named 0x6c (utf8 "t") (by decide)
            (by decide +kernel) (by decide +kernel) s⟩
      · exact ⟨utf8 "gt;", by decide,
          Entity.reference?_of_named 0x67 (utf8 "t") (by decide)
            (by decide +kernel) (by decide +kernel) s⟩
    obtain ⟨front, hfront, href⟩ := hreference
    rw [hfront, List.cons_append, Entity.decodeFrom, if_pos rfl, href]
    simp only [List.cons_append, List.nil_append, Entity.decodeFrom_append]
  · have hplain : b ≠ Ascii.ampersand := by
      rintro rfl
      exact hmem (by decide)
    rw [escapeByte_of_not_mem hmem, List.cons_append, Entity.decodeFrom, if_neg hplain]
    rfl

/-- Decoding undoes escaping, in text and in attribute values. -/
theorem decode_escapeHtml
    (place : Entity.Place) {s : Bytes}
    (hs : 0 ∉ s) :
    Entity.decode place (escapeHtml s) = s := by
  induction s with
  | nil =>
      rfl
  | cons b rest ih =>
      have hb : b ≠ 0 := fun h => hs (h ▸ List.mem_cons_self)
      have hrest := ih fun h => hs (List.mem_cons_of_mem b h)
      calc Entity.decode place (escapeHtml (b :: rest))
          = Entity.decodeFrom place 0 (escapeByte b ++ escapeHtml rest) := rfl
        _ = b :: Entity.decode place (escapeHtml rest) := decodeFrom_escapeByte place hb _
        _ = b :: rest := by rw [hrest]

end Text
end Stencil
