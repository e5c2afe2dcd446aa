import Stencil.Proofs.Path.Spelling
import Stencil.Proofs.Text.Quoted

/-!
# Tokens of a call

Splitting a call is a walk through its bytes that is outside of everything, in a quoted text or in
`{{…}}` groups.  `Passes` says that some bytes lead from one of these to another and all belong to
the token that is being read, whatever follows them; such bytes can be put one after the other.

Algorithm: a token is `Solid` when it leads from the outside to the outside.  Names, numerals and
paths are, since they hold no byte with a meaning to the walk; quoted texts are, unit by unit; so
are groups around texts without braces.

Result: `Argument.split_join`, solid tokens with blanks in between are split at these blanks, and so
are those that only an opening brace behind them could disturb.
-/

namespace Stencil
namespace Argument

/-- Bytes that lead from one place to another, all of them part of the token that is being read. -/
def Passes (before after : Inside) (s : Bytes) : Prop :=
  ∀ rest, splitFrom before (s ++ rest) = (splitFrom after rest).map (Tokens.extend s)

/-- A token that the walk leaves as it has entered it. -/
def Solid (token : Bytes) : Prop := Passes .nothing .nothing token

/-- A token that the walk leaves as it has entered it, unless an opening brace follows: with that
one, a brace at the end of the token could open a group. -/
def Detached (token : Bytes) : Prop :=
  ∀ rest, rest.head? ≠ some Ascii.lbrace →
    splitFrom .nothing (token ++ rest) = (splitFrom .nothing rest).map (Tokens.extend token)

theorem Solid.detached
    {token : Bytes}
    (h : Solid token) :
    Detached token :=
  fun rest _ => h rest

theorem map_extend_extend
    (r : Except Inside Tokens) (s t : Bytes) :
    (r.map (Tokens.extend t)).map (Tokens.extend s) = r.map (Tokens.extend (s ++ t)) := by
  cases r with
  | error _ =>
      rfl
  | ok tokens =>
      simp [Except.map, Tokens.extend]

namespace Passes

theorem nil
    (inside : Inside) :
    Passes inside inside [] := by
  intro rest
  cases h : splitFrom inside rest <;> simp [h, Except.map, Tokens.extend]

theorem append
    {a b c : Inside} {s t : Bytes}
    (hs : Passes a b s)
    (ht : Passes b c t) :
    Passes a c (s ++ t) := by
  intro rest
  rw [List.append_assoc, hs, ht, map_extend_extend]

theorem cons
    {a b c : Inside} {x : UInt8} {t : Bytes}
    (hx : Passes a b [x])
    (ht : Passes b c t) :
    Passes a c (x :: t) :=
  hx.append ht

/-- Bytes that each stay in a place. -/
theorem of_forall
    {inside : Inside} {s : Bytes}
    (h : ∀ b ∈ s, Passes inside inside [b]) :
    Passes inside inside s := by
  induction s with
  | nil =>
      exact nil inside
  | cons b s ih =>
      exact (h b List.mem_cons_self).cons (ih fun c hc => h c (List.mem_cons_of_mem b hc))

/-- Parts that each stay in a place. -/
theorem flatMap
    {α : Type} {inside : Inside} {f : α → Bytes}
    (h : ∀ a, Passes inside inside (f a))
    (l : List α) :
    Passes inside inside (l.flatMap f) := by
  induction l with
  | nil =>
      exact nil inside
  | cons a l ih =>
      exact (h a).append ih

end Passes

/-! ## Outside of everything -/

theorem passes_byte
    {b : UInt8}
    (hb : b ∉ Mark.reserved) :
    Passes .nothing .nothing [b] := by
  have hne : ∀ c ∈ Mark.reserved, b ≠ c := by
    rintro c hc rfl
    exact hb hc
  have hspace : isSpace b = false := by
    simp only [isSpace, Bool.or_eq_false_iff, beq_eq_false_iff_ne]
    exact ⟨⟨⟨hne _ (by decide), hne _ (by decide)⟩, hne _ (by decide)⟩, hne _ (by decide)⟩
  have hquotes : ¬ (b = Ascii.quote ∨ b = Ascii.apostrophe) := by
    rintro (rfl | rfl)
    · exact hne _ (by decide) rfl
    · exact hne _ (by decide) rfl
  intro rest
  rw [List.singleton_append, splitFrom]
  · simp [hquotes, hspace]
  · intro tail hbrace
    exact absurd hbrace (hne _ (by decide))

theorem solid_of_isName
    {s : Bytes}
    (h : Mark.isName s = true) :
    Solid s :=
  .of_forall fun b hb => passes_byte ((Mark.isName_iff.1 h).2 b hb)

theorem passes_equals : Passes .nothing .nothing [Ascii.equals] := fun _ => rfl

/-! ## In quoted texts -/

theorem passes_open
    {mark : UInt8}
    (h : mark = Ascii.quote ∨ mark = Ascii.apostrophe) :
    Passes .nothing (.text mark) [mark] := by
  rcases h with rfl | rfl <;> exact fun _ => rfl

theorem passes_textByte
    (mark : UInt8) {b : UInt8}
    (hbackslash : b ≠ Ascii.backslash) :
    Passes (.text mark) (if b = mark then .nothing else .text mark) [b] := by
  intro rest
  rw [List.singleton_append, splitFrom.eq_def]
  exact if_neg hbackslash

theorem passes_stay
    {mark b : UInt8}
    (hbackslash : b ≠ Ascii.backslash)
    (hmark : b ≠ mark) :
    Passes (.text mark) (.text mark) [b] := by
  have hbyte := passes_textByte mark hbackslash
  rwa [if_neg hmark] at hbyte

theorem passes_close
    {mark : UInt8}
    (h : mark = Ascii.quote ∨ mark = Ascii.apostrophe) :
    Passes (.text mark) .nothing [mark] := by
  have hbyte : Passes (.text mark) (if mark = mark then .nothing else .text mark) [mark] := by
    rcases h with rfl | rfl <;> exact passes_textByte _ (by decide)
  rwa [if_pos rfl] at hbyte

theorem passes_escape
    (mark b : UInt8) :
    Passes (.text mark) (.text mark) [Ascii.backslash, b] :=
  fun _ => rfl

theorem passes_quiet
    {mark : UInt8} {s : Bytes}
    (hmark : mark = Ascii.quote ∨ mark = Ascii.apostrophe)
    (h : Text.Quiet s) :
    Passes (.text mark) (.text mark) s := by
  refine .of_forall fun b hb => ?_
  obtain ⟨hbackslash, hquote, hapostrophe⟩ := h b hb
  rcases hmark with rfl | rfl
  · exact passes_stay hbackslash hquote
  · exact passes_stay hbackslash hapostrophe

theorem passes_neutral
    {mark : UInt8} {unit : Bytes}
    (hmark : mark = Ascii.quote ∨ mark = Ascii.apostrophe)
    (h : Text.Neutral unit) :
    Passes (.text mark) (.text mark) unit := by
  cases h with
  | plain quiet =>
      exact passes_quiet hmark quiet
  | @escape b body _ _ quiet =>
      exact (passes_escape mark b).append (passes_quiet hmark quiet)

theorem passes_quoteGlyph
    (g : Glyph) :
    Passes (.text Ascii.quote) (.text Ascii.quote) (Text.quoteGlyph g) := by
  by_cases hquote : g = .char '"'
  · rw [hquote, Text.quoteGlyph_quote]
    exact passes_escape _ _
  by_cases hapostrophe : g = .char '\x27'
  · rw [hapostrophe, Text.quoteGlyph_apostrophe]
    exact passes_stay (by decide) (by decide)
  · exact passes_neutral (.inl rfl) (Text.neutral_quoteGlyph hquote hapostrophe)

theorem passes_singleGlyph
    (g : Glyph) :
    Passes (.text Ascii.apostrophe) (.text Ascii.apostrophe) (Text.singleGlyph g) := by
  unfold Text.singleGlyph
  split
  · exact passes_stay (by decide) (by decide)
  split
  · exact passes_escape _ _
  · next hquote hapostrophe =>
      exact passes_neutral (.inr rfl) (Text.neutral_quoteGlyph hquote hapostrophe)

theorem solid_quote
    (s : Bytes) :
    Solid (Text.quote s) :=
  ((passes_open (.inl rfl)).append (.flatMap passes_quoteGlyph _)).append (passes_close (.inl rfl))

theorem solid_quoteSingle
    (s : Bytes) :
    Solid (Text.quoteSingle s) :=
  ((passes_open (.inr rfl)).append (.flatMap passes_singleGlyph _)).append (passes_close (.inr rfl))

/-! ## In groups -/

theorem passes_groupByte
    {b : UInt8}
    (hopen : b ≠ Ascii.lbrace)
    (hclose : b ≠ Ascii.rbrace) :
    Passes (.groups 0) (.groups 0) [b] := by
  intro rest
  rw [List.singleton_append, splitFrom]
  · intro tail h
    exact absurd h hopen
  · intro tail h
    exact absurd h hclose

/-- A text between double braces. -/
def braced (s : Bytes) : Bytes :=
  [Ascii.lbrace, Ascii.lbrace] ++ s ++ [Ascii.rbrace, Ascii.rbrace]

theorem solid_braced
    {s : Bytes}
    (h : ∀ b ∈ s, b ≠ Ascii.lbrace ∧ b ≠ Ascii.rbrace) :
    Solid (braced s) := by
  have hopen : Passes .nothing (.groups 0) [Ascii.lbrace, Ascii.lbrace] := fun _ => rfl
  have hclose : Passes (.groups 0) .nothing [Ascii.rbrace, Ascii.rbrace] := fun _ => rfl
  have hbody : Passes (.groups 0) (.groups 0) s :=
    .of_forall fun b hb => passes_groupByte (h b hb).1 (h b hb).2
  exact (hopen.append hbody).append hclose

/-! ## Whole calls -/

theorem splitFrom_join
    {token : Bytes} {tokens : List Bytes}
    (h : ∀ t ∈ token :: tokens, Detached t ∧ t ≠ []) :
    splitFrom .nothing (Bytes.join [Ascii.blank] (token :: tokens)) = .ok (token, tokens) := by
  induction tokens generalizing token with
  | nil =>
      have hsplit := (h token List.mem_cons_self).1 [] (by simp)
      rw [List.append_nil] at hsplit
      rw [Bytes.join, hsplit]
      simp [splitFrom, Except.map, Tokens.extend]
  | cons next tokens ih =>
      have hrest := ih fun t ht => h t (List.mem_cons_of_mem token ht)
      have hblank : ∀ s, splitFrom .nothing (Ascii.blank :: s) =
          (splitFrom .nothing s).map fun t => ([], t.all) := fun _ => rfl
      have hbrace : (Ascii.blank :: Bytes.join [Ascii.blank] (next :: tokens)).head? ≠
          some Ascii.lbrace := by
        rw [List.head?_cons]
        decide
      have hnext : next ≠ [] := (h next (by simp)).2
      rw [Bytes.join, List.append_assoc, List.singleton_append,
        (h token List.mem_cons_self).1 _ hbrace, hblank, hrest]
      simp [Except.map, Tokens.extend, Tokens.all, hnext]

/-- Tokens with blanks in between are split at these blanks. -/
theorem split_join_of_detached
    {tokens : List Bytes}
    (h : ∀ t ∈ tokens, Detached t ∧ t ≠ []) :
    split (Bytes.join [Ascii.blank] tokens) = .ok tokens := by
  cases tokens with
  | nil =>
      rfl
  | cons token tokens =>
      have htoken : token ≠ [] := (h token List.mem_cons_self).2
      simp [split, splitFrom_join h, Tokens.all, htoken]

theorem split_join
    {tokens : List Bytes}
    (h : ∀ t ∈ tokens, Solid t ∧ t ≠ []) :
    split (Bytes.join [Ascii.blank] tokens) = .ok tokens :=
  split_join_of_detached fun t ht => ⟨(h t ht).1.detached, (h t ht).2⟩

end Argument
end Stencil
