import Stencil.Proofs.Text.White

/-!
# Texts with one ampersand

Decoding keeps a text without ampersands, and behind a single ampersand it replaces at most the
reference that begins there.  A reference that stands for an ampersand or a brace stands for nothing
else, and the name of an ampersand begins with `a` or `A`.

Results: `Entity.decode_ampersand` and `Entity.eq_singleton_of_sign`.
-/

namespace Stencil
namespace Entity

theorem decodeFrom_of_not_mem
    (place : Place) {s : Bytes}
    (hs : Ascii.ampersand ∉ s)
    (n : Nat) :
    decodeFrom place n s = s.drop n := by
  induction s generalizing n with
  | nil =>
      rw [List.drop_nil]
      cases n <;> rfl
  | cons b s ih =>
      obtain ⟨hb, hs⟩ := not_or.1 (mt List.mem_cons.2 hs)
      cases n with
      | zero =>
          rw [decodeFrom, if_neg (Ne.symm hb), ih hs]
          rfl
      | succ n =>
          exact ih hs n

theorem decode_of_not_mem
    (place : Place) {s : Bytes}
    (hs : Ascii.ampersand ∉ s) :
    decode place s = s :=
  decodeFrom_of_not_mem place hs 0

/-- Behind the only ampersand of a text, the reference that begins there is replaced. -/
theorem decode_ampersand
    (place : Place) {s : Bytes}
    (hs : Ascii.ampersand ∉ s) :
    decode place (Ascii.ampersand :: s) =
      match reference? place s with
      | some (text, n) => text ++ s.drop n
      | none => Ascii.ampersand :: s := by
  rw [decode, decodeFrom, if_pos rfl]
  cases reference? place s with
  | none =>
      exact congrArg (Ascii.ampersand :: ·) (decode_of_not_mem place hs)
  | some found =>
      exact congrArg (found.1 ++ ·) (decodeFrom_of_not_mem place hs found.2)

theorem decode_stops_append
    (place : Place) {front : Bytes}
    (hfront : ∀ b ∈ front, Stop b)
    (s : Bytes) :
    decode place (front ++ s) = front ++ decode place s := by
  induction front with
  | nil =>
      rfl
  | cons b front ih =>
      have hb := decode_append_stop (hfront b List.mem_cons_self) place [] (front ++ s)
      have hrest := ih fun c hc => hfront c (List.mem_cons_of_mem b hc)
      rw [hrest] at hb
      exact hb

theorem decode_append_stops
    (place : Place) {back : Bytes}
    (hback : ∀ b ∈ back, Stop b)
    (s : Bytes) :
    decode place (s ++ back) = decode place s ++ back := by
  cases back with
  | nil =>
      rw [List.append_nil, List.append_nil]
  | cons b back =>
      have hrest := decode_stops_append place (fun c hc => hback c (List.mem_cons_of_mem b hc)) []
      rw [List.append_nil] at hrest
      rw [decode_append_stop (hback b List.mem_cons_self), hrest]
      exact congrArg (decode place s ++ b :: ·) (List.append_nil back)

/-! ## References to signs -/

/-- The signs of expressions that references can stand for. -/
def signs : Bytes := [Ascii.ampersand, Ascii.lbrace, Ascii.rbrace]

/-- Whether the code points of a name that begins with a letter hold a sign only by itself, and an
ampersand only if the letter is an `a`. -/
def standsAlone (letter : Char) : (codes : List Nat) → Bool
  | [n] => n != 0x26 || letter == 'A' || letter == 'a'
  | codes => codes.all fun n => n != 0x26 && n != 0x7b && n != 0x7d

theorem standsAlone_of_mem
    {letter : Char} {entry : Bytes × List Nat}
    (h : entry ∈ namesBeginning letter) :
    standsAlone letter entry.2 = true := by
  have hall : table.all (fun row => row.2.all fun entry => standsAlone row.1 entry.2) = true := by
    decide +kernel
  rw [namesBeginning] at h
  cases hrow : table.lookup letter with
  | none =>
      rw [hrow] at h
      cases h
  | some names =>
      rw [hrow] at h
      obtain ⟨before, after, htable, _⟩ := List.lookup_eq_some_iff.1 hrow
      have hmem : (letter, names) ∈ table := by simp [htable]
      exact List.all_eq_true.1 (List.all_eq_true.1 hall _ hmem) entry h

theorem eq_singleton_of_encoded
    {n : Nat} {b : UInt8}
    (hb : b ∈ signs)
    (hmem : b ∈ String.utf8EncodeChar (Char.ofNat n)) :
    String.utf8EncodeChar (Char.ofNat n) = [b] ∧ n = b.toNat := by
  obtain ⟨hascii, hvalid, hpos⟩ :
      b < 0x80 ∧ (Char.ofNat b.toNat).toNat = b.toNat ∧ b.toNat ≠ 0 := by
    simp only [signs, List.mem_cons, List.not_mem_nil, or_false] at hb
    rcases hb with rfl | rfl | rfl <;> decide
  refine ⟨Glyph.utf8EncodeChar_eq_of_mem hmem hascii, ?_⟩
  have hchar := Glyph.eq_of_mem_utf8EncodeChar hascii hvalid hmem
  by_cases hn : n.isValidChar
  · rw [← hvalid]
    exact (Glyph.toNat_of_char_eq hn (congrArg Glyph.char hchar)).symm
  · rw [← hchar, Char.ofNat, dif_neg hn] at hvalid
    exact absurd hvalid.symm hpos

theorem eq_singleton_of_named?
    {c : UInt8} {rest text : Bytes}
    (h : named? (c :: rest) = some text)
    {b : UInt8}
    (hb : b ∈ signs)
    (hmem : b ∈ text) :
    text = [b] ∧ (b = Ascii.ampersand → c = 0x41 ∨ c = 0x61) := by
  obtain ⟨⟨name, codes⟩, hfind, rfl⟩ := Option.map_eq_some_iff.1 h
  obtain ⟨n, hn, hbytes⟩ := List.mem_flatMap.1 hmem
  obtain ⟨hsingle, rfl⟩ := eq_singleton_of_encoded hb hbytes
  have hletter : ∀ {letter : Char} {a : UInt8}, letter.toNat = a.toNat →
      Char.ofNat c.toNat = letter → c = a := by
    intro letter a ha heq
    have hvalid : c.toNat.isValidChar := .inl (Nat.lt_trans c.toNat_lt (by decide))
    have hcode := Glyph.toNat_of_char_eq hvalid (congrArg Glyph.char heq)
    exact UInt8.toNat_inj.1 (hcode.symm.trans ha)
  have hentry := standsAlone_of_mem (List.mem_of_find?_eq_some hfind)
  unfold standsAlone at hentry
  split at hentry
  · next m hcodes =>
      dsimp only at hcodes hn
      subst hcodes
      obtain rfl := List.mem_singleton.1 hn
      refine ⟨by rw [List.flatMap_singleton, hsingle], ?_⟩
      rintro rfl
      rw [Bool.or_eq_true, Bool.or_eq_true, beq_iff_eq, beq_iff_eq] at hentry
      rcases hentry with (hother | hupper) | hlower
      · exact absurd rfl (bne_iff_ne.1 hother)
      · exact .inl (hletter rfl hupper)
      · exact .inr (hletter rfl hlower)
  · have hnone := List.all_eq_true.1 hentry _ hn
    simp only [signs, List.mem_cons, List.not_mem_nil, or_false] at hb
    rcases hb with rfl | rfl | rfl <;> cases hnone

theorem eq_singleton_of_numbered
    {n : Nat} {b : UInt8}
    (hb : b ∈ signs)
    (hmem : b ∈ numbered n) :
    numbered n = [b] := by
  have hchar : ∀ m : Nat, b ∈ (if m = 0 ∨ ¬ m.isValidChar then utf8 "\uFFFD"
      else String.utf8EncodeChar (Char.ofNat m)) →
      (if m = 0 ∨ ¬ m.isValidChar then utf8 "\uFFFD"
        else String.utf8EncodeChar (Char.ofNat m)) = [b] := by
    intro m hmem
    split at hmem
    · simp only [signs, List.mem_cons, List.not_mem_nil, or_false] at hb
      rcases hb with rfl | rfl | rfl <;> exact absurd hmem (by decide)
    · next hvalid =>
        rw [if_neg hvalid]
        exact (eq_singleton_of_encoded hb hmem).1
  exact hchar _ hmem

/-- The text of a numeric reference is a numbered character. -/
theorem exists_of_numeric?
    {s text : Bytes} {n : Nat}
    (h : numeric? s = some (text, n)) :
    ∃ m, text = numbered m := by
  have hread : ∀ {skip base : Nat} {p : UInt8 → Bool} {body : Bytes},
      numericIn? skip base p body = some (text, n) → ∃ m, text = numbered m := by
    intro skip base p body h
    unfold numericIn? at h
    simp only at h
    split at h
    · cases h
    · cases h
      exact ⟨_, rfl⟩
  rw [numeric?_eq] at h
  split at h
  · exact hread h
  · exact hread h

/-- The text of a reference by name is listed under a name with the same first letter. -/
theorem exists_of_named
    {c : UInt8} {s text : Bytes} {n : Nat}
    (hc : c ≠ Ascii.hash)
    (h : reference? .attribute (c :: s) = some (text, n)) :
    ∃ rest, named? (c :: rest) = some text := by
  rw [reference?_of_ne_hash .attribute hc] at h
  by_cases hname : isNameByte c = true
  · rw [List.takeWhile_cons_of_pos hname] at h
    unfold namedIn? at h
    simp only [reduceCtorEq, if_false] at h
    split at h
    · cases h
    · split at h
      · next hnamed =>
          cases h
          split at hnamed
          · exact ⟨_, hnamed⟩
          · exact ⟨_, hnamed⟩
      · cases h
  · rw [List.takeWhile_cons_of_neg hname] at h
    -- No name is empty or consists of a semicolon.
    have hnone : namedIn? .attribute [] (some c) = none := by
      by_cases hclosed : c = Ascii.semicolon
      · subst hclosed
        rfl
      · by_cases hequals : c = Ascii.equals
        · subst hequals
          rfl
        · rw [namedIn?_of_stop .attribute [] hclosed hequals]
          rfl
    rw [List.length_nil, List.drop_zero, List.head?_cons, hnone] at h
    cases h

/-- A reference in an attribute value that stands for a sign stands for nothing else, and one that
stands for an ampersand begins with a number sign, `A` or `a`. -/
theorem eq_singleton_of_sign
    {s text : Bytes} {n : Nat}
    (h : reference? .attribute s = some (text, n))
    {b : UInt8}
    (hb : b ∈ signs)
    (hmem : b ∈ text) :
    text = [b] ∧
      (b = Ascii.ampersand → ∃ c rest, s = c :: rest ∧ c ∈ [Ascii.hash, 0x41, 0x61]) := by
  cases s with
  | nil =>
      cases h
  | cons c s =>
      by_cases hc : c = Ascii.hash
      · subst hc
        obtain ⟨⟨text', length⟩, hread, heq⟩ := Option.map_eq_some_iff.1
          (h : (numeric? s).map (fun r => (r.1, r.2 - 1)) = some (text, n))
        cases heq
        obtain ⟨m, rfl⟩ := exists_of_numeric? hread
        exact ⟨eq_singleton_of_numbered hb hmem, fun _ => ⟨Ascii.hash, s, rfl, by decide⟩⟩
      · obtain ⟨rest, hnamed⟩ := exists_of_named hc h
        obtain ⟨htext, hletter⟩ := eq_singleton_of_named? hnamed hb hmem
        refine ⟨htext, fun hampersand => ⟨c, s, rfl, ?_⟩⟩
        rcases hletter hampersand with rfl | rfl <;> decide

end Entity
end Stencil
