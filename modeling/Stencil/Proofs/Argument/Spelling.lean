import Mathlib.Data.List.Forall2
import Stencil.Proofs.Argument.Tokens
import Stencil.Proofs.Checks
import Stencil.Proofs.Chunk
import Stencil.Proofs.Number.Decimal

/-!
# Arguments read back

`Operand.Spelled` and `Argument.Spelled` relate arguments to the texts that they are written as.  A
text value stands in quotes of either kind; integers stand in decimal; a trusted path stands between
double braces; a name stands in front with an equals sign.

Algorithm: the tokens are solid, so splitting finds them.  In a token with a name the first equals
sign is the one behind the name; in one without, an equals sign can only stand in a quoted text,
behind a quote that no name holds.  What is left of the token shows at its front what kind of value
it is.

Result: `Mark.readCall_of_spelled`.
-/

namespace Stencil

/-! ## Texts in single quotes -/

namespace Argument

theorem requote_escape
    {b : UInt8}
    (h : b ≠ Ascii.apostrophe)
    (rest : Bytes) :
    requote (Ascii.backslash :: b :: rest) = Ascii.backslash :: b :: requote rest :=
  requote.eq_2 b rest h

theorem requote_quiet
    {s : Bytes}
    (h : Text.Quiet s)
    (rest : Bytes) :
    requote (s ++ rest) = s ++ requote rest := by
  induction s with
  | nil =>
      rfl
  | cons b s ih =>
      obtain ⟨hbackslash, hquote, -⟩ := h b List.mem_cons_self
      have htail := ih fun c hc => h c (List.mem_cons_of_mem b hc)
      rw [List.cons_append, requote, htail, List.cons_append]
      · rintro tail rfl
        exact absurd rfl hbackslash
      · rintro c tail rfl
        exact absurd rfl hbackslash
      · rintro rfl
        exact absurd rfl hquote

theorem requote_neutral
    {unit : Bytes}
    (h : Text.Neutral unit)
    (rest : Bytes) :
    requote (unit ++ rest) = unit ++ requote rest := by
  cases h with
  | plain quiet =>
      exact requote_quiet quiet rest
  | @escape b body _ notApostrophe quiet =>
      rw [List.cons_append, List.cons_append, requote_escape notApostrophe, requote_quiet quiet]
      rfl

theorem requote_singleGlyph
    (g : Glyph)
    (rest : Bytes) :
    requote (Text.singleGlyph g ++ rest) = Text.quoteGlyph g ++ requote rest := by
  unfold Text.singleGlyph
  split
  · next h =>
      rw [h]
      rfl
  split
  · next h =>
      rw [h, Text.quoteGlyph_apostrophe]
      rfl
  · next hquote hapostrophe =>
      exact requote_neutral (Text.neutral_quoteGlyph hquote hapostrophe) rest

theorem requote_flatMap_singleGlyph
    (gs : List Glyph) :
    requote (gs.flatMap Text.singleGlyph) = gs.flatMap Text.quoteGlyph := by
  induction gs with
  | nil =>
      rfl
  | cons g gs ih =>
      rw [List.flatMap_cons, requote_singleGlyph, ih, List.flatMap_cons]

/-- Every byte string reads back from its form in single quotes. -/
theorem unquoteSingle?_quoteSingle
    (s : Bytes) :
    unquoteSingle? (Text.quoteSingle s) = some s := by
  have hread : ∀ body, unquoteSingle? (Ascii.apostrophe :: body ++ [Ascii.apostrophe]) =
      Text.unquote? (Ascii.quote :: requote body ++ [Ascii.quote]) := by
    intro body
    rw [List.cons_append]
    exact (if_pos List.getLast?_concat).trans (by rw [List.dropLast_concat])
  rw [Text.quoteSingle, hread, requote_flatMap_singleGlyph]
  exact Text.unquote?_quote s

end Argument

/-! ## Texts of values -/

/-- The values of arguments with their texts. -/
inductive Operand.Spelled : Operand PathExpr Literal → Bytes → Prop
  | text (s : Bytes) : Spelled (.literal (.text s)) (Text.quote s)
  | textSingle (s : Bytes) : Spelled (.literal (.text s)) (Text.quoteSingle s)
  | int (n : Int64) : Spelled (.literal (.int n)) (Bytes.decimalInt n.toInt)
  | bool (b : Bool) : Spelled (.literal (.bool b)) (utf8 (if b then "true" else "false"))
  | null : Spelled (.literal .null) (utf8 "null")
  | path {p : PathExpr} {t : Bytes} (spelled : p.Spelled t) : Spelled (.path p) t
  | raw {p : PathExpr} {t : Bytes} (spelled : p.Spelled t) :
      Spelled (.path (.raw p)) (Argument.braced t)

theorem Bytes.isName_decimalInt
    (n : Int) :
    Mark.isName (decimalInt n) = true := by
  have hkind : ∀ b ∈ decimalInt n, (Ascii.isDigit b || b == Ascii.minus) = true := by
    intro b hb
    rw [Bool.or_eq_true, beq_iff_eq]
    exact mem_decimalInt hb
  exact Mark.isName_of_kind (decimalInt_ne_nil n) hkind (by decide)

namespace Operand.Spelled

theorem solid
    {v : Operand PathExpr Literal} {t : Bytes}
    (h : v.Spelled t) :
    Argument.Solid t := by
  cases h with
  | text s =>
      exact Argument.solid_quote s
  | textSingle s =>
      exact Argument.solid_quoteSingle s
  | int n =>
      exact Argument.solid_of_isName (Bytes.isName_decimalInt n.toInt)
  | bool b =>
      exact Argument.solid_of_isName (by cases b <;> decide)
  | null =>
      exact Argument.solid_of_isName (by decide)
  | path spelled =>
      exact Argument.solid_of_isName (PathExpr.isName_of_spelled spelled)
  | raw spelled =>
      have hbytes := (Mark.isName_iff.1 (PathExpr.isName_of_spelled spelled)).2
      refine Argument.solid_braced fun b hb => ⟨?_, ?_⟩
      · rintro rfl
        exact hbytes _ hb (by decide)
      · rintro rfl
        exact hbytes _ hb (by decide)

theorem ne_nil
    {v : Operand PathExpr Literal} {t : Bytes}
    (h : v.Spelled t) :
    t ≠ [] := by
  cases h with
  | text s =>
      exact List.cons_ne_nil _ _
  | textSingle s =>
      exact List.cons_ne_nil _ _
  | int n =>
      exact Bytes.decimalInt_ne_nil n.toInt
  | bool b =>
      cases b <;> decide
  | null =>
      decide
  | path spelled =>
      exact (Mark.isName_iff.1 (PathExpr.isName_of_spelled spelled)).1
  | raw spelled =>
      exact List.cons_ne_nil _ _

end Operand.Spelled

namespace Argument

/-! ## Literals -/

theorem cons_ne_of_head?
    {b : UInt8} {rest word : Bytes}
    (h : word.head? ≠ some b) :
    b :: rest ≠ word := by
  rintro rfl
  exact h rfl

theorem literal?_quote
    (s : Bytes) :
    literal? (Text.quote s) = .ok (some (.text s)) := by
  have hback := Text.unquote?_quote s
  rw [Text.quote, List.cons_append] at hback ⊢
  unfold literal?
  rw [if_neg (cons_ne_of_head? (by decide)), if_neg (cons_ne_of_head? (by decide)),
    if_neg (not_or.2 ⟨cons_ne_of_head? (by decide), cons_ne_of_head? (by decide)⟩)]
  simp only [if_true, hback]

theorem literal?_quoteSingle
    (s : Bytes) :
    literal? (Text.quoteSingle s) = .ok (some (.text s)) := by
  have hback := unquoteSingle?_quoteSingle s
  rw [Text.quoteSingle, List.cons_append] at hback ⊢
  unfold literal?
  rw [if_neg (cons_ne_of_head? (by decide)), if_neg (cons_ne_of_head? (by decide)),
    if_neg (not_or.2 ⟨cons_ne_of_head? (by decide), cons_ne_of_head? (by decide)⟩)]
  have hne : Ascii.apostrophe ≠ Ascii.quote := by decide
  simp only [if_neg hne, if_true, hback]

theorem literal?_decimalInt
    (n : Int64) :
    literal? (Bytes.decimalInt n.toInt) = .ok (some (.int n)) := by
  have hread := Bytes.int64?_decimalInt n
  cases htoken : Bytes.decimalInt n.toInt with
  | nil =>
      exact absurd htoken (Bytes.decimalInt_ne_nil n.toInt)
  | cons b rest =>
      rw [htoken] at hread
      have hb : Ascii.isDigit b = true ∨ b = Ascii.minus :=
        Bytes.mem_decimalInt (htoken ▸ List.mem_cons_self)
      have hne : ∀ c, ¬ (Ascii.isDigit c = true ∨ c = Ascii.minus) → b ≠ c := by
        rintro c hc rfl
        exact hc hb
      have hword : ∀ word, Bytes.int64? word = none → b :: rest ≠ word := by
        rintro word hword rfl
        rw [hword] at hread
        cases hread
      unfold literal?
      rw [if_neg (hword _ (by decide)), if_neg (hword _ (by decide)),
        if_neg (not_or.2 ⟨hword _ (by decide), hword _ (by decide)⟩)]
      have hnumeral : Ascii.isDigit b = true ∨ b = Ascii.minus ∨ b = Ascii.plus ∨ b = Ascii.dot :=
        hb.imp_right .inl
      simp only [if_neg (hne Ascii.quote (by decide)), if_neg (hne Ascii.apostrophe (by decide)),
        if_pos hnumeral, hread]

/-- What a path begins with is the beginning of no literal. -/
theorem literal?_of_spelled
    {p : PathExpr} {t : Bytes}
    (h : p.Spelled t) :
    literal? t = .ok none := by
  cases h with
  | inside spelled =>
      cases spelled <;> rfl
  | outwards n spelled =>
      rw [PathExpr.ascent_succ]
      rfl

/-! ## Values -/

theorem not_startsWith_of_isName
    {t : Bytes}
    (h : Mark.isName t = true) :
    Bytes.startsWith [Ascii.lbrace, Ascii.lbrace] t = false := by
  rw [Bool.eq_false_iff]
  intro hstart
  obtain ⟨rest, rfl⟩ := Bytes.startsWith_iff.1 hstart
  exact (Mark.isName_iff.1 h).2 Ascii.lbrace List.mem_cons_self (by decide)

theorem readValue_of_literal?
    {t : Bytes} {l : Literal}
    (hstart : Bytes.startsWith [Ascii.lbrace, Ascii.lbrace] t = false)
    (h : literal? t = .ok (some l)) :
    readValue t = .ok (.literal l) := by
  rw [readValue, if_neg (Bool.eq_false_iff.1 hstart), h]
  rfl

theorem readPath_of_spelled
    {p : PathExpr} {t : Bytes}
    (h : p.Spelled t) :
    readPath t = .ok p := by
  rw [readPath, PathExpr.read_of_spelled h]

theorem readValue_path
    {p : PathExpr} {t : Bytes}
    (h : p.Spelled t) :
    readValue t = .ok (.path p) := by
  have hstart := not_startsWith_of_isName (PathExpr.isName_of_spelled h)
  rw [readValue, if_neg (Bool.eq_false_iff.1 hstart), literal?_of_spelled h, ok_bind]
  simp only [readPath_of_spelled h]
  rfl

theorem unbraced?_two
    {s : Bytes}
    (h : Text.Unspaced s) :
    unbraced? 2 (braced s) = some s := by
  have hlength : (braced s).length = s.length + 4 := by
    simp only [braced, List.length_append, List.length_cons, List.length_nil]
    omega
  have hclose : Bytes.endsWith (List.replicate 2 Ascii.rbrace) (braced s) = true :=
    Bytes.endsWith_iff_suffix.2 ⟨[Ascii.lbrace, Ascii.lbrace] ++ s, rfl⟩
  have hinner : ((braced s).drop 2).take ((braced s).length - 2 * 2) = s := by
    have hdrop : (braced s).drop 2 = s ++ [Ascii.rbrace, Ascii.rbrace] := rfl
    rw [hdrop, hlength]
    exact List.take_left' (by omega)
  rw [unbraced?, if_pos ⟨by omega, rfl, hclose⟩, hinner, h.trim]

theorem unbraced?_three
    {s : Bytes}
    (h : Mark.isName s = true) :
    unbraced? 3 (braced s) = none := by
  obtain ⟨hne, hbytes⟩ := Mark.isName_iff.1 h
  refine if_neg ?_
  rintro ⟨-, hstart, -⟩
  obtain ⟨rest, hrest⟩ := Bytes.startsWith_iff.1 hstart
  cases s with
  | nil =>
      exact hne rfl
  | cons b s =>
      obtain ⟨rfl, -⟩ := List.cons.inj (List.cons.inj (List.cons.inj hrest).2).2
      exact hbytes Ascii.lbrace List.mem_cons_self (by decide)

theorem readValue_raw
    {p : PathExpr} {t : Bytes}
    (h : p.Spelled t) :
    readValue (braced t) = .ok (.path (.raw p)) := by
  have hstart : Bytes.startsWith [Ascii.lbrace, Ascii.lbrace] (braced t) = true := rfl
  rw [readValue, if_pos hstart, unbraced?_three (PathExpr.isName_of_spelled h),
    unbraced?_two (PathExpr.unspaced_of_spelled h), Option.none_or]
  simp only [readPath_of_spelled h]
  rfl

/-- A value reads back from its text. -/
theorem readValue_of_spelled
    {v : Operand PathExpr Literal} {t : Bytes}
    (h : v.Spelled t) :
    readValue t = .ok v := by
  cases h with
  | text s =>
      exact readValue_of_literal? rfl (literal?_quote s)
  | textSingle s =>
      exact readValue_of_literal? rfl (literal?_quoteSingle s)
  | int n =>
      exact readValue_of_literal? (not_startsWith_of_isName (Bytes.isName_decimalInt n.toInt))
        (literal?_decimalInt n)
  | bool b =>
      cases b <;> rfl
  | null =>
      rfl
  | path spelled =>
      exact readValue_path spelled
  | raw spelled =>
      exact readValue_raw spelled

/-! ## Names -/

theorem isName_of_isIdentifier
    {name : Bytes}
    (h : isIdentifier name = true) :
    Mark.isName name = true := by
  cases name with
  | nil =>
      cases h
  | cons b rest =>
      simp only [isIdentifier, Bool.and_eq_true, List.all_eq_true] at h
      have hkind : ∀ c ∈ b :: rest, (Ascii.isLetter c || c == Ascii.underscore ||
          c == Ascii.minus || Ascii.isDigit c) = true := by
        intro c hc
        rcases List.mem_cons.1 hc with rfl | hrest
        · rw [h.1, Bool.true_or]
        · exact h.2 c hrest
      exact Mark.isName_of_kind (List.cons_ne_nil b rest) hkind (by decide)

theorem equals_notMem_of_isName
    {s : Bytes}
    (h : Mark.isName s = true) :
    Ascii.equals ∉ s :=
  fun hmem => (Mark.isName_iff.1 h).2 _ hmem (by decide)

theorem splitName_of_isName
    {s : Bytes}
    (h : Mark.isName s = true) :
    splitName s = (none, s) := by
  rw [splitName, Bytes.cut?_of_notMem (equals_notMem_of_isName h)]

/-- A token whose first byte begins no name has none. -/
theorem splitName_of_head
    {b : UInt8}
    (hequals : b ≠ Ascii.equals)
    (hidentifier : ∀ s, isIdentifier (b :: s) = false)
    (rest : Bytes) :
    splitName (b :: rest) = (none, b :: rest) := by
  rw [splitName, Bytes.cut?_cons_of_ne hequals]
  cases Bytes.cut? [Ascii.equals] rest with
  | none =>
      rfl
  | some parts =>
      simp [hidentifier]

theorem splitName_of_spelled
    {v : Operand PathExpr Literal} {t : Bytes}
    (h : v.Spelled t) :
    splitName t = (none, t) := by
  cases h with
  | text s =>
      exact splitName_of_head (by decide) (fun _ => rfl) _
  | textSingle s =>
      exact splitName_of_head (by decide) (fun _ => rfl) _
  | int n =>
      exact splitName_of_isName (Bytes.isName_decimalInt n.toInt)
  | bool b =>
      exact splitName_of_isName (by cases b <;> decide)
  | null =>
      exact splitName_of_isName (by decide)
  | path spelled =>
      exact splitName_of_isName (PathExpr.isName_of_spelled spelled)
  | raw spelled =>
      exact splitName_of_head (by decide) (fun _ => rfl) _

theorem splitName_named
    {name : Bytes}
    (h : isIdentifier name = true)
    (t : Bytes) :
    splitName (name ++ Ascii.equals :: t) = (some name, t) := by
  have hcut := Bytes.cut?_append_cons (equals_notMem_of_isName (isName_of_isIdentifier h)) t
  simp [splitName, hcut, h]

/-! ## Arguments -/

/-- The arguments with their texts. -/
inductive Spelled : Argument → Bytes → Prop
  | positional {v : Operand PathExpr Literal} {t : Bytes} (spelled : v.Spelled t) :
      Spelled ⟨none, v⟩ t
  | named {name : Bytes} {v : Operand PathExpr Literal} {t : Bytes}
      (identifier : isIdentifier name = true) (spelled : v.Spelled t) :
      Spelled ⟨some name, v⟩ (name ++ Ascii.equals :: t)

namespace Spelled

theorem solid
    {a : Argument} {t : Bytes}
    (h : Spelled a t) :
    Solid t := by
  cases h with
  | positional spelled =>
      exact spelled.solid
  | named identifier spelled =>
      have hname := solid_of_isName (isName_of_isIdentifier identifier)
      exact hname.append (passes_equals.cons spelled.solid)

theorem ne_nil
    {a : Argument} {t : Bytes}
    (h : Spelled a t) :
    t ≠ [] := by
  cases h with
  | positional spelled =>
      exact spelled.ne_nil
  | named identifier spelled =>
      exact List.append_ne_nil_of_right_ne_nil _ (List.cons_ne_nil _ _)

/-- An argument reads back from its text. -/
theorem read
    {a : Argument} {t : Bytes}
    (h : Spelled a t) :
    read t = .ok a := by
  cases h with
  | positional spelled =>
      simp [Argument.read, splitName_of_spelled spelled, readValue_of_spelled spelled, Except.map]
  | @named name v t identifier spelled =>
      have hne := spelled.ne_nil
      rw [Argument.read, splitName_named identifier]
      cases t with
      | nil =>
          exact absurd rfl hne
      | cons b rest =>
          simp [readValue_of_spelled spelled, Except.map]

end Spelled

theorem mapM_read
    {arguments : List Argument} {tokens : List Bytes}
    (h : List.Forall₂ Spelled arguments tokens) :
    tokens.mapM read = .ok arguments := by
  induction h with
  | nil =>
      rfl
  | cons hfirst _ ih =>
      rw [List.mapM_cons, hfirst.read, ok_bind, ih]
      rfl

theorem solid_of_forall₂
    {arguments : List Argument} {tokens : List Bytes}
    (h : List.Forall₂ Spelled arguments tokens) :
    ∀ t ∈ tokens, Solid t ∧ t ≠ [] := by
  induction h with
  | nil =>
      exact fun _ ht => absurd ht List.not_mem_nil
  | cons hfirst _ ih =>
      exact List.forall_mem_cons.2 ⟨⟨hfirst.solid, hfirst.ne_nil⟩, ih⟩

end Argument

/-- A call reads back from its name and the texts of its arguments with single blanks in
between. -/
theorem Mark.readCall_of_spelled
    {name : Bytes} {arguments : List Argument} {tokens : List Bytes}
    (hname : isName name = true)
    (h : List.Forall₂ Argument.Spelled arguments tokens) :
    readCall (Bytes.join [Ascii.blank] (name :: tokens)) = .ok (name, arguments) := by
  have htokens : ∀ t ∈ name :: tokens, Argument.Solid t ∧ t ≠ [] :=
    List.forall_mem_cons.2
      ⟨⟨Argument.solid_of_isName hname, (isName_iff.1 hname).1⟩, Argument.solid_of_forall₂ h⟩
  rw [readCall, Argument.split_join htokens, ofArguments, ok_mapError, ok_bind]
  simp only [hname, if_true, Argument.mapM_read h, ofArguments, ok_mapError, ok_bind]

/-- A text with quotes of both kinds, an equals sign, blanks, braces, a backslash, a stray byte and
a line break. -/
def hardText : Bytes := utf8 "a=\"b\" '\x7b\x7bc\x7d\x7d' \\" ++ [0xff, Ascii.newline]

/-- Arguments of every kind, some of them paths that look like keywords and numbers. -/
def hardArguments : List Argument :=
  [⟨none, .literal (.text hardText)⟩,
   ⟨some (utf8 "title"), .literal (.text hardText)⟩,
   ⟨none, .literal (.int Int64.minValue)⟩,
   ⟨some (utf8 "on"), .literal (.bool true)⟩,
   ⟨none, .literal .null⟩,
   ⟨none, .path (.parent 2 (.dotted [utf8 "true", utf8 "1e5"]))⟩,
   ⟨some (utf8 "at"), .path (.metadata (utf8 "index") [])⟩,
   ⟨none, .path (.raw (.parent 1 .this))⟩]

/-- Their texts. -/
def hardTokens : List Bytes :=
  [utf8 "\"a=\\\"b\\\" '\x7b\x7bc\x7d\x7d' \\\\\\xff\\n\"",
   utf8 "title='a=\"b\" \\'\x7b\x7bc\x7d\x7d\\' \\\\\\xff\\n'",
   utf8 "-9223372036854775808",
   utf8 "on=true",
   utf8 "null",
   utf8 "../.././true.1e5",
   utf8 "at=@index",
   utf8 "\x7b\x7b../.\x7d\x7d"]

theorem plain_of_hardArguments :
    ∀ s ∈ [utf8 "true", utf8 "1e5", utf8 "index"], PathExpr.Plain s := by
  have hsegments : ∀ s ∈ [utf8 "true", utf8 "1e5", utf8 "index"],
      PathExpr.isSegment s = true ∧ Ascii.dot ∉ s ∧
        ∀ g ∈ glyphs s, Text.isSpaceGlyph g = false := by decide +kernel
  exact fun s hs => ⟨(hsegments s hs).1, (hsegments s hs).2.1, (hsegments s hs).2.2⟩

theorem spelled_hardArguments : List.Forall₂ Argument.Spelled hardArguments hardTokens := by
  have htokens : hardTokens =
      [Text.quote hardText, utf8 "title" ++ Ascii.equals :: Text.quoteSingle hardText,
       Bytes.decimalInt Int64.minValue.toInt, utf8 "on" ++ Ascii.equals :: utf8 "true",
       utf8 "null",
       PathExpr.ascent 2 ++ Ascii.dot :: Ascii.slash ::
         Bytes.join [Ascii.dot] [utf8 "true", utf8 "1e5"],
       utf8 "at" ++ Ascii.equals :: Ascii.atSign :: Bytes.join [Ascii.dot] [utf8 "index"],
       Argument.braced (PathExpr.ascent 1 ++ [Ascii.dot])] := by decide +kernel
  rw [htokens]
  refine .cons (.positional (.text hardText)) ?_
  refine .cons (.named (by decide) (.textSingle hardText)) ?_
  refine .cons (.positional (.int Int64.minValue)) ?_
  refine .cons (.named (by decide) (.bool true)) ?_
  refine .cons (.positional .null) ?_
  refine .cons (.positional (.path (.outwards 1 (.dotted fun s hs => ?_)))) ?_
  · exact plain_of_hardArguments s (List.mem_append_left [utf8 "index"] hs)
  refine .cons (.named (by decide) (.path (.inside (.metadata fun s hs => ?_)))) ?_
  · exact plain_of_hardArguments s (List.mem_append_right [utf8 "true", utf8 "1e5"] hs)
  exact .cons (.positional (.raw (.outwards 0 .this))) .nil

theorem Mark.readCall_of_spelled_hardArguments :
    isName (utf8 "link") = true ∧ List.Forall₂ Argument.Spelled hardArguments hardTokens ∧
      readCall (Bytes.join [Ascii.blank] (utf8 "link" :: hardTokens)) =
        .ok (utf8 "link", hardArguments) := by
  have hname : isName (utf8 "link") = true := by decide
  exact ⟨hname, spelled_hardArguments, Mark.readCall_of_spelled hname spelled_hardArguments⟩

end Stencil
