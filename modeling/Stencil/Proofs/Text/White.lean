import Stencil.Proofs.Text.Utf8
import Stencil.Text.Blank
import Stencil.Text.Entity
import Stencil.Tree

/-!
# Texts cut at white space

No character reference goes across white space, and white space of ASCII is a character by itself,
so a text can be cut next to white space before its references are decoded and its line breaks and
tabs are dropped.

Result: `Whitespace.strip_decode_append`.
-/

namespace Stencil

/-- Whether a byte is white space of ASCII. -/
def Ascii.isWhite (b : UInt8) : Bool :=
  (decide (0x09 ≤ b) && decide (b ≤ 0x0d)) || b == Ascii.blank

/-- The white space of ASCII. -/
def Ascii.whites : Bytes := [tab, newline, 0x0b, formFeed, carriageReturn, blank]

theorem Ascii.of_isWhite
    {b : UInt8} {P : UInt8 → Bool}
    (hP : whites.all P = true)
    (h : isWhite b = true) :
    P b = true := by
  have hall : (List.range 256).all fun n => !isWhite n.toUInt8 || whites.contains n.toUInt8 := by
    decide +kernel
  have hb := List.all_eq_true.1 hall b.toNat (List.mem_range.2 b.toNat_lt)
  have hback : b.toNat.toUInt8 = b := UInt8.ofNat_toNat
  rw [hback, h] at hb
  exact List.all_eq_true.1 hP b (by simpa using hb)

namespace Entity

/-! ## References and what follows them -/

section Runs

variable {b : UInt8} (t : Bytes)

theorem takeWhile_append_stop
    {p : UInt8 → Bool}
    (hb : p b = false)
    (s : Bytes) :
    (s ++ b :: t).takeWhile p = s.takeWhile p := by
  induction s with
  | nil =>
      rw [List.nil_append, List.takeWhile_cons_of_neg (Bool.eq_false_iff.1 hb), List.takeWhile_nil]
  | cons a s ih =>
      rw [List.cons_append, List.takeWhile_cons, List.takeWhile_cons, ih]

theorem head?_drop_append_stop
    {c : UInt8}
    (hc : b ≠ c)
    {s : Bytes} {n : Nat}
    (hn : n ≤ s.length) :
    ((s ++ b :: t).drop n).head? = some c ↔ (s.drop n).head? = some c := by
  rw [List.drop_append_of_le_length hn]
  cases s.drop n with
  | nil =>
      simp [hc]
  | cons a rest =>
      rfl

end Runs

theorem length_takeWhile_le
    (p : UInt8 → Bool) (s : Bytes) :
    (s.takeWhile p).length ≤ s.length :=
  (List.takeWhile_sublist p).length_le

/-- The reference by name whose letters are given, and what follows them. -/
def namedIn? (place : Place) (letters : Bytes) (next : Option UInt8) : Option (Bytes × Nat) :=
  let closed := next = some Ascii.semicolon
  let name := if closed then letters ++ [Ascii.semicolon] else letters
  if place = .attribute ∧ ¬ closed ∧ next = some Ascii.equals then none
  else match named? name with
    | some text => some (text, name.length)
    | none => if place = .text then shortened? name (min (name.length - 1) longestBare) else none

theorem reference?_of_ne_hash
    (place : Place) {c : UInt8}
    (hc : c ≠ Ascii.hash)
    (s : Bytes) :
    reference? place (c :: s) =
      namedIn? place ((c :: s).takeWhile isNameByte)
        ((c :: s).drop ((c :: s).takeWhile isNameByte).length).head? := by
  unfold reference?
  split
  · next heq =>
      cases heq
  · next heq =>
      exact absurd (List.cons.inj heq).1 hc
  · rfl

theorem namedIn?_of_stop
    (place : Place) (letters : Bytes) {b : UInt8}
    (hsemicolon : b ≠ Ascii.semicolon)
    (hequals : b ≠ Ascii.equals) :
    namedIn? place letters (some b) = namedIn? place letters none := by
  simp only [namedIn?, Option.some.injEq, hsemicolon, hequals, reduceCtorEq]

/-- The numeric reference with digits of a kind at the front of a text. -/
def numericIn? (skip base : Nat) (p : UInt8 → Bool) (body : Bytes) : Option (Bytes × Nat) :=
  let digits := body.takeWhile p
  let length := numericLength skip digits (body.drop digits.length)
  if length ≤ 3 then none
  else
    some (numbered (digits.foldl (fun n b => n * base + (Ascii.hexValue? b).getD 0) 0), length)

theorem length_of_numericIn?
    {skip base : Nat} {p : UInt8 → Bool} {s text : Bytes} {n : Nat}
    (h : numericIn? skip base p s = some (text, n)) :
    3 < n ∧ n ≤ skip + s.length := by
  have hle := length_takeWhile_le p s
  unfold numericIn? at h
  simp only at h
  split at h
  · cases h
  · next hlong =>
      cases h
      refine ⟨by omega, ?_⟩
      unfold numericLength
      split
      · next hhead =>
          have hlt : (s.takeWhile p).length < s.length := by
            refine Nat.lt_of_le_of_ne hle fun heq => ?_
            rw [heq, List.drop_length] at hhead
            cases hhead
          omega
      · omega

theorem numericIn?_append_stop
    {b : UInt8} {p : UInt8 → Bool}
    (hb : p b = false)
    (hsemicolon : b ≠ Ascii.semicolon)
    (skip base : Nat) (s t : Bytes) :
    numericIn? skip base p (s ++ b :: t) = numericIn? skip base p s := by
  have hlength : numericLength skip (s.takeWhile p) ((s ++ b :: t).drop (s.takeWhile p).length) =
      numericLength skip (s.takeWhile p) (s.drop (s.takeWhile p).length) :=
    congrArg (skip + (s.takeWhile p).length + ·)
      (ite_congr (propext (head?_drop_append_stop t hsemicolon (length_takeWhile_le p s)))
        (fun _ => rfl) fun _ => rfl)
  simp only [numericIn?, takeWhile_append_stop t hb, hlength]

/-- The digits are hexadecimal behind an `x`.  Texts that are too short hold no reference anyway. -/
theorem numeric?_eq
    (s : Bytes) :
    numeric? s =
      if s.head? = some 0x78 ∨ s.head? = some 0x58 then
        numericIn? 3 16 (fun b => (Ascii.hexValue? b).isSome) (s.drop 1)
      else numericIn? 2 10 Ascii.isDigit s := by
  rw [numeric?]
  split
  · next hshort =>
      have hnone : ∀ {skip base : Nat} {p : UInt8 → Bool} {body : Bytes}, skip + body.length ≤ 3 →
          numericIn? skip base p body = none := by
        intro skip base p body hbody
        cases hread : numericIn? skip base p body with
        | none =>
            rfl
        | some r =>
            obtain ⟨hlong, hle⟩ := length_of_numericIn? (n := r.2) hread
            omega
      split
      · exact (hnone (by rw [List.length_drop]; omega)).symm
      · exact (hnone (by omega)).symm
  · split
    · next hhex =>
        simp only [hhex, if_true]
        rfl
    · next hhex =>
        simp only [hhex, if_false]
        rfl

/-- A byte that is part of no reference, so that a reference in front of it ends there. -/
structure Stop (b : UInt8) : Prop where
  name : isNameByte b = false
  hexDigit : (Ascii.hexValue? b).isSome = false
  digit : Ascii.isDigit b = false
  sign : b ∉ [Ascii.ampersand, Ascii.hash, Ascii.semicolon, Ascii.equals, 0x78, 0x58]

theorem stop_of_isWhite
    {b : UInt8}
    (hb : Ascii.isWhite b = true) :
    Stop b := by
  have hall := Ascii.of_isWhite (P := fun b => decide (isNameByte b = false ∧
    (Ascii.hexValue? b).isSome = false ∧ Ascii.isDigit b = false ∧
    b ∉ [Ascii.ampersand, Ascii.hash, Ascii.semicolon, Ascii.equals, 0x78, 0x58])) (by decide) hb
  obtain ⟨hname, hhexDigit, hdigit, hsign⟩ := of_decide_eq_true hall
  exact ⟨hname, hhexDigit, hdigit, hsign⟩

section Stop

variable {b : UInt8} (hb : Stop b)

include hb

theorem numeric?_append_stop
    (s t : Bytes) :
    numeric? (s ++ b :: t) = numeric? s := by
  obtain ⟨-, hhexDigit, hdigit, hsign⟩ := hb
  simp only [List.mem_cons, List.not_mem_nil, or_false, not_or] at hsign
  obtain ⟨-, -, hsemicolon, -, hsmall, hlarge⟩ := hsign
  have hhead : ∀ c, b ≠ c → ((s ++ b :: t).head? = some c ↔ s.head? = some c) :=
    fun c hc => head?_drop_append_stop t hc (Nat.zero_le s.length)
  rw [numeric?_eq, numeric?_eq]
  simp only [hhead 0x78 hsmall, hhead 0x58 hlarge]
  split
  · next hhex =>
      have hpos : 1 ≤ s.length := by
        cases s with
        | nil =>
            simp at hhex
        | cons =>
            exact Nat.succ_pos _
      rw [List.drop_append_of_le_length hpos]
      exact numericIn?_append_stop (p := fun b => (Ascii.hexValue? b).isSome) hhexDigit hsemicolon
        3 16 (s.drop 1) t
  · exact numericIn?_append_stop hdigit hsemicolon 2 10 s t

/-- What stands behind the end of a reference does not matter. -/
theorem reference?_append_stop
    (place : Place) (s t : Bytes) :
    reference? place (s ++ b :: t) = reference? place s := by
  have hname := hb.name
  have hsign := hb.sign
  simp only [List.mem_cons, List.not_mem_nil, or_false, not_or] at hsign
  obtain ⟨-, hhash, hsemicolon, hequals, -, -⟩ := hsign
  cases s with
  | nil =>
      have hnone : reference? place (b :: t) = namedIn? place [] (some b) := by
        rw [reference?_of_ne_hash place hhash, List.takeWhile_cons_of_neg (Bool.eq_false_iff.1 hname)]
        rfl
      rw [List.nil_append, hnone, namedIn?_of_stop place [] hsemicolon hequals]
      cases place <;> rfl
  | cons c s =>
      by_cases hc : c = Ascii.hash
      · subst hc
        change (numeric? (s ++ b :: t)).map _ = (numeric? s).map _
        rw [numeric?_append_stop hb]
      · have hletters := takeWhile_append_stop t hname (c :: s)
        rw [List.cons_append] at hletters
        rw [List.cons_append, reference?_of_ne_hash place hc, reference?_of_ne_hash place hc,
          hletters, ← List.cons_append,
          List.drop_append_of_le_length (length_takeWhile_le isNameByte (c :: s))]
        cases (c :: s).drop ((c :: s).takeWhile isNameByte).length with
        | nil =>
            exact namedIn?_of_stop place _ hsemicolon hequals
        | cons d rest =>
            rfl

end Stop

theorem length_of_numeric?
    {s text : Bytes} {n : Nat}
    (h : numeric? s = some (text, n)) :
    3 < n ∧ n ≤ s.length + 2 := by
  rw [numeric?_eq] at h
  split at h
  · next hhex =>
      obtain ⟨hlong, hle⟩ := length_of_numericIn? h
      cases s with
      | nil =>
          simp at hhex
      | cons c s =>
          rw [List.drop_one, List.tail_cons] at hle
          rw [List.length_cons]
          omega
  · obtain ⟨hlong, hle⟩ := length_of_numericIn? h
    omega

theorem length_of_shortened?
    {name text : Bytes} {n length : Nat}
    (h : shortened? name n = some (text, length)) :
    0 < length ∧ length ≤ n := by
  fun_induction shortened? name n with
  | case1 | case2 =>
      cases h
  | case3 n text' hnamed =>
      cases h
      omega
  | case4 n hnamed ih =>
      obtain ⟨hpos, hle⟩ := ih h
      omega

/-- A reference takes some bytes of the text that it stands in. -/
theorem length_of_reference?
    {place : Place} {s text : Bytes} {n : Nat}
    (h : reference? place s = some (text, n)) :
    0 < n ∧ n ≤ s.length := by
  cases s with
  | nil =>
      cases h
  | cons c s =>
      by_cases hc : c = Ascii.hash
      · subst hc
        obtain ⟨⟨text', length⟩, hread, heq⟩ := Option.map_eq_some_iff.1
          (h : (numeric? s).map (fun r => (r.1, r.2 - 1)) = some (text, n))
        cases heq
        obtain ⟨hlong, hle⟩ := length_of_numeric? hread
        rw [List.length_cons]
        omega
      · rw [reference?_of_ne_hash place hc] at h
        generalize hnext : ((c :: s).drop ((c :: s).takeWhile isNameByte).length).head? = next at h
        have hletters := length_takeWhile_le isNameByte (c :: s)
        -- A semicolon that closes the name stands in the text as well.
        have hname : (if next = some Ascii.semicolon then
            (c :: s).takeWhile isNameByte ++ [Ascii.semicolon]
            else (c :: s).takeWhile isNameByte).length ≤ (c :: s).length := by
          split
          · next hclosed =>
              rw [List.length_append, List.length_singleton]
              refine Nat.lt_of_le_of_ne hletters fun heq => ?_
              rw [heq, List.drop_length, List.head?_nil, hclosed] at hnext
              cases hnext
          · exact hletters
        unfold namedIn? at h
        simp only at h
        split at h
        · cases h
        · split at h
          · next hnamed =>
              cases h
              refine ⟨List.length_pos_iff.2 fun hnil => ?_, hname⟩
              rw [hnil] at hnamed
              cases hnamed
          · split at h
            · obtain ⟨hpos, hle⟩ := length_of_shortened? h
              exact ⟨hpos, by omega⟩
            · cases h

/-! ## Decoding -/

/-- A text is decoded up to a byte that is part of no reference as if it ended there. -/
theorem decodeFrom_append_stop
    {b : UInt8}
    (hb : Stop b)
    (place : Place) {n : Nat} {s : Bytes}
    (hn : n ≤ s.length)
    (t : Bytes) :
    decodeFrom place n (s ++ b :: t) = decodeFrom place n s ++ b :: decode place t := by
  induction s generalizing n with
  | nil =>
      obtain rfl := Nat.le_zero.1 hn
      have hampersand : b ≠ Ascii.ampersand := fun heq => hb.sign (heq ▸ List.mem_cons_self)
      have hnil : decodeFrom place 0 [] = [] := rfl
      rw [List.nil_append, hnil, List.nil_append, decodeFrom, if_neg hampersand]
      rfl
  | cons c s ih =>
      cases n with
      | succ n =>
          exact ih (Nat.le_of_succ_le_succ hn)
      | zero =>
          rw [List.cons_append, decodeFrom, decodeFrom, reference?_append_stop hb]
          split
          · split
            · next hread =>
                rw [ih (length_of_reference? hread).2, List.append_assoc]
            · rw [ih (Nat.zero_le _)]
              rfl
          · rw [ih (Nat.zero_le _)]
            rfl

theorem decode_append_stop
    {b : UInt8}
    (hb : Stop b)
    (place : Place) (s t : Bytes) :
    decode place (s ++ b :: t) = decode place s ++ b :: decode place t :=
  decodeFrom_append_stop hb place (Nat.zero_le _) t

end Entity

/-! ## Stripping -/

namespace Whitespace

theorem strip_append_of_glyphs
    {x y : Bytes}
    (h : glyphs (x ++ y) = glyphs x ++ glyphs y) :
    strip (x ++ y) = strip x ++ strip y := by
  simp only [strip, shownChars, h, List.map_append, List.filter_append, encodeChars,
    List.flatMap_append]

/-- White space at a place where a text is cut. -/
def WhiteAt (s t : Bytes) : Prop :=
  (∃ front b, s = front ++ [b] ∧ Ascii.isWhite b = true) ∨
    ∃ b back, t = b :: back ∧ Ascii.isWhite b = true

theorem ascii_of_isWhite
    {b : UInt8}
    (h : Ascii.isWhite b = true) :
    b < 0x80 :=
  of_decide_eq_true (Ascii.of_isWhite (P := fun b => decide (b < 0x80)) (by decide) h)

/-- A text that is cut next to white space is decoded and stripped piece by piece. -/
theorem strip_decode_append
    {s t : Bytes}
    (h : WhiteAt s t) :
    strip (Entity.decode .text (s ++ t)) =
      strip (Entity.decode .text s) ++ strip (Entity.decode .text t) := by
  have hnil : Entity.decode .text [] = [] := rfl
  rcases h with ⟨front, b, rfl, hb⟩ | ⟨b, back, rfl, hb⟩
  · have hstop := Entity.stop_of_isWhite hb
    have hdecode : Entity.decode .text (front ++ [b] ++ t) =
        Entity.decode .text (front ++ [b]) ++ Entity.decode .text t := by
      rw [List.append_assoc, List.singleton_append, Entity.decode_append_stop hstop,
        Entity.decode_append_stop hstop, hnil, List.append_assoc]
      rfl
    rw [hdecode, Entity.decode_append_stop hstop, hnil]
    refine strip_append_of_glyphs ?_
    rw [List.append_assoc, List.singleton_append, glyphs_append_cons (ascii_of_isWhite hb),
      glyphs_append_cons (ascii_of_isWhite hb), List.append_assoc]
    rfl
  · have hstop := Entity.stop_of_isWhite hb
    have hfront : Entity.decode .text (b :: back) = b :: Entity.decode .text back :=
      Entity.decode_append_stop hstop .text [] back
    rw [Entity.decode_append_stop hstop, hfront]
    refine strip_append_of_glyphs ?_
    rw [glyphs_append_cons (ascii_of_isWhite hb), glyphs_cons_of_ascii (ascii_of_isWhite hb)]

/-- A stripped text is well-formed, so it is blank when its pieces are. -/
theorem isBlank_strip_append
    (s t : Bytes) :
    Text.isBlank (strip s ++ strip t) = (Text.isBlank (strip s) && Text.isBlank (strip t)) := by
  have hutf8 : isUtf8 (strip s) = true := isUtf8_iff.2 ⟨_, rfl⟩
  rw [Text.isBlank, glyphs_append hutf8, List.all_append]
  rfl

end Whitespace
end Stencil
