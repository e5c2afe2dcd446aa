import Stencil.Markup.RawText

/-!
# Tokens

Markup is cut into text, start tags, end tags, and comments and declarations, which are skipped.

Input: the source, and the name of the raw-text element that was opened last, if its content comes
next.

Algorithm: `nextToken?` reads the token at the front and gives back the rest.  Input that ends
inside a tag ends the tokens.  `tokens` repeats this; every token is shorter than what is left.
-/

namespace Stencil
namespace Markup

/-- A token; a start tag carries its name and attributes as they are written. -/
inductive Token where
  | text
  | startTag (name : Bytes) (attributes : List Attribute) (selfClosing : Bool)
  | endTag
  | skipped

/-- Whether the input begins with a tag, a comment or a declaration. -/
def startsMarkup : Bytes → Bool
  | Ascii.less :: c :: _ =>
    Ascii.isLetter c || c == Ascii.slash || c == Ascii.bang || c == Ascii.question
  | _ => false

/-- The input from the first tag, comment or declaration on. -/
def afterText : Bytes → Bytes
  | [] => []
  | b :: s => if startsMarkup (b :: s) then b :: s else afterText s

/-- The input behind the next closing angle bracket. -/
def afterAngle : Bytes → Bytes
  | [] => []
  | b :: s => if b = Ascii.greater then s else afterAngle s

/-- The input behind a comment, of which `dashes` dashes were just read; `atStart` holds until
anything else was.  A comment ends at `-->` or `--!>`, and right at its start at `>` or `->`. -/
def afterComment (dashes : Nat) (atStart : Bool) : Bytes → Bytes
  | [] => []
  | b :: s =>
    if b = Ascii.minus then afterComment (dashes + 1) atStart s
    else if b = Ascii.greater ∧ (2 ≤ dashes ∨ atStart) then s
    else if b = Ascii.bang ∧ 2 ≤ dashes then
      match s with
      | [] => []
      | c :: s' =>
        if c = Ascii.greater then s'
        else if c = Ascii.minus then afterComment 1 false s'
        else afterComment 0 false s'
    else afterComment 0 false s

/-- Whether a tag with this source ends in `/>`. -/
def closesItself (source : Bytes) : Bool := Bytes.endsWith (utf8 "/>") source

/-- The token behind an opening angle bracket and the byte `c`, and the rest. -/
def readMarkup? (c : UInt8) (s : Bytes) : Option (Token × Bytes) :=
  if Ascii.isLetter c then
    match readTag .between (s.dropWhile isNameByte) with
    | some (attributes, rest) =>
      some (.startTag (c :: s.takeWhile isNameByte) attributes
        (closesItself (s.take (s.length - rest.length))), rest)
    | none => none
  else if c = Ascii.slash then
    match s with
    | [] => some (.text, [])
    | d :: s' =>
      if d = Ascii.greater then some (.skipped, s')
      else if Ascii.isLetter d then
        (readTag .between (s'.dropWhile isNameByte)).map fun (_, rest) => (.endTag, rest)
      else some (.skipped, afterAngle s)
  else if c = Ascii.bang then
    match Bytes.after? (utf8 "--") s with
    | some s' => some (.skipped, afterComment 0 true s')
    | none => some (.skipped, afterAngle s)
  else some (.skipped, afterAngle s)

/-- The token at the front of non-raw input, and the rest. -/
def readToken? (s : Bytes) : Option (Token × Bytes) :=
  match s with
  | [] => none
  | b :: s' =>
    if startsMarkup (b :: s') then
      match s' with
      | [] => none
      | c :: s'' => readMarkup? c s''
    else some (.text, afterText s')

/-- The token at the front of the input, and the rest. -/
def nextToken? (raw : Option Bytes) (s : Bytes) : Option (Token × Bytes) :=
  match raw with
  | none => readToken? s
  | some name =>
    let (content, rest) := contentOf name s
    if content.isEmpty then readToken? rest else some (.text, rest)

/-- The raw-text element whose content follows a token. -/
def Token.opensRaw : Token → Option Bytes
  | .startTag name _ _ => rawNames.find? (· == name.map Ascii.toLower)
  | _ => none

section Length

theorem length_afterText (s : Bytes) : (afterText s).length ≤ s.length := by
  induction s with
  | nil => simp [afterText]
  | cons b s ih =>
    rw [afterText]
    split
    · exact Nat.le_refl _
    · simp only [List.length_cons]
      omega

theorem length_afterAngle (s : Bytes) : (afterAngle s).length ≤ s.length := by
  induction s with
  | nil => simp [afterAngle]
  | cons b s ih =>
    rw [afterAngle]
    split
    · simp
    · simp only [List.length_cons]
      omega

theorem length_afterComment (dashes : Nat) (atStart : Bool) (s : Bytes) :
    (afterComment dashes atStart s).length ≤ s.length := by
  fun_induction afterComment dashes atStart s <;> simp_all <;> omega

theorem length_after? {p s rest : Bytes} (h : Bytes.after? p s = some rest) :
    rest.length ≤ s.length := by
  induction p generalizing s with
  | nil =>
    simp only [Bytes.after?, Option.some.injEq] at h
    simp [h]
  | cons a p ih =>
    cases s with
    | nil => simp [Bytes.after?] at h
    | cons b s =>
      simp only [Bytes.after?] at h
      split at h
      · exact Nat.le_succ_of_le (ih h)
      · simp at h

theorem length_dropWhile (p : UInt8 → Bool) (s : Bytes) : (s.dropWhile p).length ≤ s.length := by
  induction s with
  | nil => simp
  | cons b s ih =>
    rw [List.dropWhile_cons]
    split
    · simp only [List.length_cons]
      omega
    · exact Nat.le_refl _

/-- Reading markup consumes no more than there is. -/
theorem length_of_readMarkup {c : UInt8} {s rest : Bytes} {t : Token}
    (h : readMarkup? c s = some (t, rest)) : rest.length ≤ s.length := by
  unfold readMarkup? at h
  split at h
  · split at h
    · next hr =>
      have := length_of_readTag hr
      have := length_dropWhile isNameByte s
      simp only [Option.some.injEq, Prod.mk.injEq] at h
      obtain ⟨-, rfl⟩ := h
      omega
    · simp at h
  split at h
  · split at h
    · simp only [Option.some.injEq, Prod.mk.injEq] at h
      obtain ⟨-, rfl⟩ := h
      simp
    · split at h
      · simp only [Option.some.injEq, Prod.mk.injEq] at h
        obtain ⟨-, rfl⟩ := h
        simp
      split at h
      · next s' _ _ =>
        simp only [Option.map_eq_some_iff] at h
        obtain ⟨⟨as, r⟩, hr, he⟩ := h
        have := length_of_readTag hr
        have := length_dropWhile isNameByte s'
        simp only [Prod.mk.injEq] at he
        obtain ⟨-, rfl⟩ := he
        simp only [List.length_cons]
        omega
      · simp only [Option.some.injEq, Prod.mk.injEq] at h
        obtain ⟨-, rfl⟩ := h
        exact length_afterAngle _
  split at h
  · split at h
    · next hr =>
      have := length_after? hr
      simp only [Option.some.injEq, Prod.mk.injEq] at h
      obtain ⟨-, rfl⟩ := h
      exact Nat.le_trans (length_afterComment _ _ _) this
    · simp only [Option.some.injEq, Prod.mk.injEq] at h
      obtain ⟨-, rfl⟩ := h
      exact length_afterAngle _
  · simp only [Option.some.injEq, Prod.mk.injEq] at h
    obtain ⟨-, rfl⟩ := h
    exact length_afterAngle _

/-- Reading a token consumes input. -/
theorem length_of_readToken {s rest : Bytes} {t : Token} (h : readToken? s = some (t, rest)) :
    rest.length < s.length := by
  unfold readToken? at h
  split at h
  · simp at h
  · split at h
    · split at h
      · simp at h
      · have := length_of_readMarkup h
        simp only [List.length_cons]
        omega
    · simp only [Option.some.injEq, Prod.mk.injEq] at h
      obtain ⟨-, rfl⟩ := h
      exact Nat.lt_of_le_of_lt (length_afterText _) (by simp)

/-- Every token consumes input. -/
theorem length_of_nextToken {raw : Option Bytes} {s rest : Bytes} {t : Token}
    (h : nextToken? raw s = some (t, rest)) : rest.length < s.length := by
  unfold nextToken? at h
  split at h
  · exact length_of_readToken h
  · next name =>
    have hs := contentOf_append name s
    have hl := congrArg List.length hs
    rw [List.length_append] at hl
    simp only at h
    split at h
    · have := length_of_readToken h
      omega
    · next hc =>
      simp only [Option.some.injEq, Prod.mk.injEq] at h
      obtain ⟨-, rfl⟩ := h
      have : (contentOf name s).1.length ≠ 0 := by
        simpa [List.isEmpty_iff] using hc
      omega

end Length

/-- The tokens of the input, each with its source. -/
def tokens (raw : Option Bytes) (s : Bytes) : List (Token × Bytes) :=
  match _h : nextToken? raw s with
  | none => []
  | some (t, rest) => (t, s.take (s.length - rest.length)) :: tokens t.opensRaw rest
termination_by s.length
decreasing_by exact length_of_nextToken _h

end Markup
end Stencil
