import Stencil.Diagnostic
import Stencil.Proofs.Markup.Tiling
import Stencil.Proofs.Number.Decimal
import Stencil.Proofs.Path.Reading

/-!
# Lines that a diagnostic shows

The lines of a source are its pieces between line breaks, counted from one.

Algorithm: a range has a part of its first line in front of it and, unless it ends with a line break,
a part of its last line behind it.  With these parts it begins behind a line break or at the start,
and it ends in front of a line break or at the end; so its pieces are lines of the source, as many
as it holds line breaks and one more, and the number of the first is that of the line breaks in
front and one more.

Results: `Context.touched_eq_splitOn`, the pieces of what is shown are the lines with the numbers
that are given, and `Context.lines_shown_exactly`.
-/

namespace Stencil

/-! ## Pieces -/

namespace Bytes

theorem length_splitOn
    (sep : UInt8) (s : Bytes) :
    (splitOn sep s).length = s.count sep + 1 := by
  induction s with
  | nil =>
      rfl
  | cons b s ih =>
      rw [splitOn]
      by_cases hb : b = sep
      · rw [if_pos hb, List.length_cons, ih, hb, List.count_cons_self]
      · rw [if_neg hb, List.count_cons_of_ne hb]
        cases hpieces : splitOn sep s with
        | nil =>
            exact absurd hpieces (splitOn_ne_nil sep s)
        | cons piece pieces =>
            rw [hpieces] at ih
            exact ih

/-- The pieces of a text, each with a separator behind it, are the text with one behind it. -/
theorem flatMap_splitOn
    (sep : UInt8) (s : Bytes) :
    ((splitOn sep s).flatMap fun piece => piece ++ [sep]) = s ++ [sep] := by
  induction s with
  | nil =>
      rfl
  | cons b s ih =>
      rw [splitOn]
      by_cases hb : b = sep
      · rw [if_pos hb, List.flatMap_cons, ih, hb]
        rfl
      · rw [if_neg hb]
        cases hpieces : splitOn sep s with
        | nil =>
            exact absurd hpieces (splitOn_ne_nil sep s)
        | cons piece pieces =>
            rw [hpieces] at ih
            exact congrArg (b :: ·) ih

/-- A separator at the front becomes what is put between the pieces. -/
theorem join_splitOn_sep
    (sep : UInt8) (between s : Bytes) :
    join between (splitOn sep (sep :: s)) = between ++ join between (splitOn sep s) := by
  rw [splitOn, if_pos rfl]
  cases hpieces : splitOn sep s with
  | nil =>
      exact absurd hpieces (splitOn_ne_nil sep s)
  | cons piece pieces =>
      rfl

/-- A text in front that has no separator belongs to the first piece. -/
theorem splitOn_append_of_notMem
    {sep : UInt8} {front : Bytes}
    (h : sep ∉ front)
    (s : Bytes) :
    ∃ piece pieces, splitOn sep s = piece :: pieces ∧
      splitOn sep (front ++ s) = (front ++ piece) :: pieces := by
  induction front with
  | nil =>
      obtain ⟨piece, pieces, hpieces⟩ := List.exists_cons_of_ne_nil (splitOn_ne_nil sep s)
      exact ⟨piece, pieces, hpieces, hpieces⟩
  | cons b front ih =>
      obtain ⟨hb, hfront⟩ := not_or.1 (mt List.mem_cons.2 h)
      obtain ⟨piece, pieces, hpieces, hmore⟩ := ih hfront
      refine ⟨piece, pieces, hpieces, ?_⟩
      rw [List.cons_append, splitOn, if_neg (Ne.symm hb), hmore]
      rfl

theorem join_splitOn_append_left
    {sep : UInt8} {front : Bytes}
    (h : sep ∉ front)
    (between s : Bytes) :
    join between (splitOn sep (front ++ s)) = front ++ join between (splitOn sep s) := by
  obtain ⟨piece, pieces, hpieces, hmore⟩ := splitOn_append_of_notMem h s
  rw [hpieces, hmore]
  cases pieces <;> simp [join]

/-- A text behind that has no separator belongs to the last piece. -/
theorem join_splitOn_append_right
    {sep : UInt8} {behind : Bytes}
    (h : sep ∉ behind)
    (between s : Bytes) :
    join between (splitOn sep (s ++ behind)) = join between (splitOn sep s) ++ behind := by
  induction s with
  | nil =>
      rw [List.nil_append, splitOn_of_notMem h]
      rfl
  | cons b s ih =>
      by_cases hb : b = sep
      · subst hb
        rw [List.cons_append, join_splitOn_sep, join_splitOn_sep, ih, List.append_assoc]
      · have hfront : sep ∉ [b] := fun hmem => hb (List.mem_singleton.1 hmem).symm
        have hfirst := join_splitOn_append_left hfront between
        rw [← List.singleton_append, List.append_assoc, hfirst, hfirst, ih, List.append_assoc]

/-- A margin in front of every piece but the first. -/
theorem join_margin
    (sep : UInt8) (margin first : Bytes) (rest : List Bytes) :
    join (sep :: margin) (first :: rest) = join [sep] (first :: rest.map (margin ++ ·)) := by
  induction rest generalizing first with
  | nil =>
      rfl
  | cons next rest ih =>
      rw [join, ih, List.map_cons, join]
      cases rest <;> simp [join]

end Bytes

/-! ## Lines -/

namespace Context

/-- Some lines of a source, counted from one. -/
def linesBetween (source : Bytes) (first last : Nat) : List Bytes :=
  ((Bytes.splitOn Ascii.newline source).drop (first - 1)).take (last + 1 - first)

/-- Where a line of a source begins: behind the lines before it and their line breaks. -/
def lineStart (source : Bytes) (n : Nat) : Nat :=
  (((Bytes.splitOn Ascii.newline source).take (n - 1)).flatMap (· ++ [Ascii.newline])).length

/-- A position lies on a line: at one of its bytes, or at its end. -/
def LiesOn (source : Bytes) (position n : Nat) : Prop :=
  ∃ line, 1 ≤ n ∧ (Bytes.splitOn Ascii.newline source)[n - 1]? = some line ∧
    lineStart source n ≤ position ∧ position ≤ lineStart source n + line.length

/-- A text in front of the start of a line. -/
def EndsLine (s : Bytes) : Prop := s = [] ∨ ∃ front, s = front ++ [Ascii.newline]

/-- A text behind the end of a line. -/
def BeginsLine (s : Bytes) : Prop := s = [] ∨ ∃ behind, s = Ascii.newline :: behind

theorem firstLine_spec
    (s : Bytes) :
    Ascii.newline ∉ firstLine s ∧ ∃ behind, s = firstLine s ++ behind ∧ BeginsLine behind := by
  induction s with
  | nil =>
      exact ⟨List.not_mem_nil, [], rfl, Or.inl rfl⟩
  | cons b s ih =>
      obtain ⟨hnone, behind, hs, hbegins⟩ := ih
      by_cases hb : b = Ascii.newline
      · subst hb
        exact ⟨List.not_mem_nil, _, rfl, Or.inr ⟨s, rfl⟩⟩
      · have hline : firstLine (b :: s) = b :: firstLine s := by
          simp [firstLine, hb]
        rw [hline]
        refine ⟨?_, behind, congrArg (b :: ·) hs, hbegins⟩
        intro hmem
        rcases List.mem_cons.1 hmem with hfirst | hmem
        · exact hb hfirst.symm
        · exact hnone hmem

theorem lastLine_eq
    (s : Bytes) :
    lastLine s = (firstLine s.reverse).reverse :=
  rfl

theorem lastLine_spec
    (s : Bytes) :
    Ascii.newline ∉ lastLine s ∧ ∃ front, s = front ++ lastLine s ∧ EndsLine front := by
  obtain ⟨hnone, behind, hs, hbegins⟩ := firstLine_spec s.reverse
  rw [lastLine_eq]
  refine ⟨fun hmem => hnone (List.mem_reverse.1 hmem), behind.reverse, ?_, ?_⟩
  · rw [← List.reverse_append, ← hs, List.reverse_reverse]
  · rcases hbegins with rfl | ⟨more, rfl⟩
    · exact Or.inl rfl
    · exact Or.inr ⟨more.reverse, List.reverse_cons⟩

/-- The lines in front of the start of a line, as many as there are line breaks. -/
theorem splitOn_of_endsLine
    {front : Bytes}
    (h : EndsLine front)
    (s : Bytes) :
    ∃ earlier : List Bytes,
      Bytes.splitOn Ascii.newline (front ++ s) = earlier ++ Bytes.splitOn Ascii.newline s ∧
      earlier.length = front.count Ascii.newline ∧
      earlier.flatMap (· ++ [Ascii.newline]) = front := by
  rcases h with rfl | ⟨front, rfl⟩
  · exact ⟨[], rfl, rfl, rfl⟩
  · refine ⟨Bytes.splitOn Ascii.newline front, ?_, ?_, ?_⟩
    · rw [List.append_assoc, List.singleton_append, Bytes.splitOn_append]
    · rw [Bytes.length_splitOn, List.count_append, List.count_singleton_self]
    · exact Bytes.flatMap_splitOn Ascii.newline front

theorem splitOn_of_beginsLine
    {behind : Bytes}
    (h : BeginsLine behind)
    (s : Bytes) :
    ∃ later : List Bytes,
      Bytes.splitOn Ascii.newline (s ++ behind) = Bytes.splitOn Ascii.newline s ++ later := by
  rcases h with rfl | ⟨behind, rfl⟩
  · exact ⟨[], by rw [List.append_nil, List.append_nil]⟩
  · exact ⟨_, Bytes.splitOn_append _ s behind⟩

/-- A range without the line break at its end, and the parts of its lines around it, in the source
that they come from. -/
structure Surrounded (source : Bytes) (start : Nat) (l : Lines) (before behind : Bytes) : Prop where
  source_eq : source = before ++ ((l.head ++ l.culprit ++ l.tail) ++ behind)
  endsLine : EndsLine before
  beginsLine : BeginsLine behind
  head : Ascii.newline ∉ l.head
  tail : Ascii.newline ∉ l.tail
  first : l.first = before.count Ascii.newline + 1
  last : l.last = l.first + l.culprit.count Ascii.newline
  start : start = before.length + l.head.length

/-- A range of a source has its lines around it. -/
theorem exists_surrounded
    {source : Bytes} {start stop : Nat}
    (hrange : start ≤ stop)
    (hstop : stop ≤ source.length) :
    ∃ before behind, Surrounded source start (lines source start stop) before behind := by
  have hsource := Bytes.append_slice_append (s := source) hrange
  have hlength : (source.take start).length = start := by
    rw [List.length_take]
    omega
  unfold lines
  dsimp only
  generalize source.take start = front at hsource hlength ⊢
  generalize Bytes.slice source start stop = range at hsource ⊢
  generalize source.drop stop = rest at hsource ⊢
  subst hsource hlength
  obtain ⟨hhead, before, hbefore, hends⟩ := lastLine_spec front
  generalize lastLine front = head at hhead hbefore ⊢
  subst hbefore
  have hfirst : (before ++ head).count Ascii.newline + 1 = before.count Ascii.newline + 1 := by
    rw [List.count_append, List.count_eq_zero.2 hhead, Nat.add_zero]
  by_cases hlast : range.getLast? = some Ascii.newline
  · -- The line break at the end of the range ends its last line.
    obtain ⟨inner, rfl⟩ := List.getLast?_eq_some_iff.1 hlast
    refine ⟨before, Ascii.newline :: rest, ?_⟩
    simp only [hlast, if_true, List.dropLast_concat]
    exact ⟨by simp, hends, Or.inr ⟨rest, rfl⟩, hhead, List.not_mem_nil, hfirst, rfl,
      List.length_append⟩
  · obtain ⟨htail, behind, hrest, hbegins⟩ := firstLine_spec rest
    generalize firstLine rest = tail at htail hrest ⊢
    subst hrest
    refine ⟨before, behind, ?_⟩
    simp only [hlast, if_false]
    exact ⟨by simp, hends, hbegins, hhead, htail, hfirst, rfl, List.length_append⟩

section Numbers

variable {source before behind : Bytes} {start : Nat} {l : Lines}

/-- The lines in front of those of the range are as many as the number of the first says. -/
theorem Surrounded.earlier
    (h : Surrounded source start l before behind) :
    ∃ earlier : List Bytes,
      Bytes.splitOn Ascii.newline source =
        earlier ++ Bytes.splitOn Ascii.newline ((l.head ++ l.culprit ++ l.tail) ++ behind) ∧
      l.first - 1 = earlier.length ∧
      earlier.flatMap (· ++ [Ascii.newline]) = before := by
  obtain ⟨earlier, hearlier, hlength, hbefore⟩ :=
    splitOn_of_endsLine h.endsLine ((l.head ++ l.culprit ++ l.tail) ++ behind)
  rw [← h.source_eq] at hearlier
  refine ⟨earlier, hearlier, ?_, hbefore⟩
  rw [h.first, hlength, Nat.add_sub_cancel]

/-- What is shown has as many lines as the numbers say. -/
theorem Surrounded.length_splitOn
    (h : Surrounded source start l before behind) :
    (Bytes.splitOn Ascii.newline (l.head ++ l.culprit ++ l.tail)).length =
      l.last - l.first + 1 := by
  rw [Bytes.length_splitOn, List.count_append, List.count_append, List.count_eq_zero.2 h.head,
    List.count_eq_zero.2 h.tail, h.last]
  omega

theorem Surrounded.first_le_last
    (h : Surrounded source start l before behind) :
    l.first ≤ l.last := by
  rw [h.last]
  omega

/-- The pieces of what is shown are the lines with the numbers that are given. -/
theorem touched_eq_splitOn
    (h : Surrounded source start l before behind) :
    linesBetween source l.first l.last =
      Bytes.splitOn Ascii.newline (l.head ++ l.culprit ++ l.tail) := by
  obtain ⟨earlier, hearlier, hskip, _⟩ := h.earlier
  obtain ⟨later, hlater⟩ := splitOn_of_beginsLine h.beginsLine (l.head ++ l.culprit ++ l.tail)
  have htake : l.last + 1 - l.first =
      (Bytes.splitOn Ascii.newline (l.head ++ l.culprit ++ l.tail)).length := by
    have hnumbers := h.first_le_last
    rw [h.length_splitOn]
    omega
  rw [linesBetween, hearlier, hskip, List.drop_left, hlater, htake, List.take_left]

/-- The range begins on the first of its lines. -/
theorem liesOn_first
    (h : Surrounded source start l before behind) :
    LiesOn source start l.first := by
  obtain ⟨earlier, hearlier, hskip, hbefore⟩ := h.earlier
  obtain ⟨piece, pieces, _, hpieces⟩ :=
    Bytes.splitOn_append_of_notMem h.head (l.culprit ++ (l.tail ++ behind))
  rw [List.append_assoc, List.append_assoc, hpieces] at hearlier
  have hbegin : lineStart source l.first = before.length := by
    rw [lineStart, hearlier, hskip, List.take_left, hbefore]
  refine ⟨l.head ++ piece, ?_, ?_, ?_, ?_⟩
  · rw [h.first]
    omega
  · rw [hearlier, hskip, List.getElem?_append_right (Nat.le_refl _), Nat.sub_self]
    rfl
  · rw [hbegin, h.start]
    omega
  · rw [hbegin, h.start, List.length_append]
    omega

end Numbers

/-! ## Printing -/

/-- Without marking, a culprit is shown as its lines with an indent in front of all but the first. -/
theorem excerpt_plain
    {l : Lines}
    (hhead : Ascii.newline ∉ l.head)
    (htail : Ascii.newline ∉ l.tail)
    (hculprit : l.culprit ≠ [])
    (indent : Bytes) :
    l.excerpt .plain indent = Bytes.join (Ascii.newline :: indent)
      (Bytes.splitOn Ascii.newline (l.head ++ l.culprit ++ l.tail)) := by
  have hmarked : ∀ lines : List Bytes,
      (lines.map fun line => Style.plain.culpritOn ++ line ++ Style.plain.culpritOff) = lines := by
    intro lines
    simp [Style.plain]
  rw [Lines.excerpt, List.isEmpty_eq_false_iff.2 hculprit, hmarked,
    Bytes.join_splitOn_append_right htail, Bytes.join_splitOn_append_left hhead]
  rfl

theorem newline_notMem_range
    (l : Lines) :
    Ascii.newline ∉ l.range := by
  have hdecimal : ∀ n, Ascii.newline ∉ Bytes.decimal n := fun n hmem =>
    absurd (Bytes.isDigit_of_mem_decimal hmem) (by decide)
  have hline : Ascii.newline ∉ utf8 "line " := by decide
  have hdash : Ascii.newline ∉ utf8 "-" := by decide
  have hcolon : Ascii.newline ∉ utf8 ":" := by decide
  unfold Lines.range
  split <;> simp only [List.mem_append, not_or] <;> simp [hdecimal, hline, hdash, hcolon]

/-- Where neither what stands in front nor the margin holds a line break, every line is printed on a
line of its own. -/
theorem splitOn_printed
    {place margin first : Bytes} {rest : List Bytes}
    (hplace : Ascii.newline ∉ place)
    (hmargin : Ascii.newline ∉ margin)
    (hlines : ∀ line ∈ first :: rest, Ascii.newline ∉ line) :
    Bytes.splitOn Ascii.newline (place ++ Bytes.join (Ascii.newline :: margin) (first :: rest)) =
      (place ++ first) :: rest.map (margin ++ ·) := by
  obtain ⟨hfirst, hrest⟩ := List.forall_mem_cons.1 hlines
  have hmargins : ∀ line ∈ first :: rest.map (margin ++ ·), Ascii.newline ∉ line := by
    refine List.forall_mem_cons.2 ⟨hfirst, fun printed hprinted hmem => ?_⟩
    obtain ⟨line, hline, rfl⟩ := List.mem_map.1 hprinted
    rcases List.mem_append.1 hmem with hmem | hmem
    · exact hmargin hmem
    · exact hrest line hline hmem
  rw [Bytes.join_margin]
  obtain ⟨piece, pieces, hpieces, hprinted⟩ := Bytes.splitOn_append_of_notMem hplace
    (Bytes.join [Ascii.newline] (first :: rest.map (margin ++ ·)))
  rw [Bytes.splitOn_join hmargins] at hpieces
  obtain ⟨rfl, rfl⟩ := List.cons.inj hpieces
  exact hprinted

/-- A range that lies in the source is shown behind its place. -/
theorem shown_of_range
    {source : Bytes} {start stop : Nat}
    (hrange : start ≤ stop)
    (hstop : stop ≤ source.length)
    (style : Style) (name indent : Bytes) :
    shown style indent ⟨name, source, start, stop⟩ =
      let l := lines source start stop
      let place := name ++ utf8 ", " ++ l.range ++ utf8 " "
      place ++ l.excerpt style (indent ++ List.replicate (glyphs place).length Ascii.blank) := by
  have hknown : ¬ ((start : Int) = -1) := by
    omega
  have hvalid : isValid ⟨name, source, start, stop⟩ = true := by
    simp only [isValid, Bool.and_eq_true, decide_eq_true_eq]
    omega
  rw [shown, if_neg hknown, if_pos hvalid]
  rfl

/-- The culprit is the range, without the line break at its end if there is one. -/
theorem slice_eq_culprit
    (source : Bytes) (start stop : Nat) :
    let culprit := (lines source start stop).culprit
    Bytes.slice source start stop = culprit ++ [Ascii.newline] ∨
      Bytes.slice source start stop = culprit ∧ culprit.getLast? ≠ some Ascii.newline := by
  unfold lines
  by_cases hlast : (Bytes.slice source start stop).getLast? = some Ascii.newline
  · left
    obtain ⟨inner, hinner⟩ := List.getLast?_eq_some_iff.1 hlast
    simp [hinner]
  · right
    simp [hlast]

/-- For every range of a source: the part of the first line in front of it, the range without a line
break at its end and the part of the last line behind it are together the lines with the numbers
that are given, and the range begins on the first of them.  Without colours and with a culprit that
is not empty, the diagnostic shows these lines behind the place, all but the first with the same
margin in front; where neither the name nor the indent holds a line break, they are printed on just
as many lines. -/
theorem lines_shown_exactly
    (source : Bytes) (start stop : Nat)
    (hrange : start ≤ stop)
    (hstop : stop ≤ source.length) :
    let l := lines source start stop
    let touched := linesBetween source l.first l.last
    l.head ++ l.culprit ++ l.tail = Bytes.join [Ascii.newline] touched ∧
    (l.first ≤ l.last ∧ touched.length = l.last - l.first + 1) ∧
    (Bytes.slice source start stop = l.culprit ++ [Ascii.newline] ∨
      Bytes.slice source start stop = l.culprit ∧ l.culprit.getLast? ≠ some Ascii.newline) ∧
    LiesOn source start l.first ∧
    (l.culprit ≠ [] → ∀ name indent,
      let place := name ++ utf8 ", " ++ l.range ++ utf8 " "
      let margin := indent ++ List.replicate (glyphs place).length Ascii.blank
      let printed := shown .plain indent ⟨name, source, start, stop⟩
      printed = place ++ Bytes.join (Ascii.newline :: margin) touched ∧
      (Ascii.newline ∉ name → Ascii.newline ∉ indent → ∃ first rest, touched = first :: rest ∧
        Bytes.splitOn Ascii.newline printed = (place ++ first) :: rest.map (margin ++ ·))) := by
  intro l touched
  obtain ⟨before, behind, hl⟩ := exists_surrounded hrange hstop
  have htouched : touched = Bytes.splitOn Ascii.newline (l.head ++ l.culprit ++ l.tail) :=
    touched_eq_splitOn hl
  refine ⟨?_, ⟨hl.first_le_last, ?_⟩, slice_eq_culprit source start stop, liesOn_first hl, ?_⟩
  · rw [htouched, Bytes.join_splitOn]
  · rw [htouched]
    exact hl.length_splitOn
  · intro hculprit name indent place margin printed
    have hprinted : printed = place ++ Bytes.join (Ascii.newline :: margin) touched := by
      rw [htouched, ← excerpt_plain hl.head hl.tail hculprit]
      exact shown_of_range hrange hstop .plain name indent
    refine ⟨hprinted, fun hname hindent => ?_⟩
    have hlines : ∀ line ∈ touched, Ascii.newline ∉ line := by
      rw [htouched]
      exact fun line => Bytes.notMem_of_mem_splitOn
    have hplace : Ascii.newline ∉ place := by
      have hrange := newline_notMem_range l
      have hcomma : Ascii.newline ∉ utf8 ", " := by decide
      have hblank : Ascii.newline ∉ utf8 " " := by decide
      simp [place, hname, hcomma, hrange, hblank]
    have hmargin : Ascii.newline ∉ margin := by
      have hblank : Ascii.newline ≠ Ascii.blank := by decide
      simp [margin, hindent, hblank]
    obtain ⟨first, rest, hcons⟩ :=
      List.exists_cons_of_ne_nil (htouched ▸ Bytes.splitOn_ne_nil Ascii.newline _)
    rw [hprinted]
    rw [hcons] at hlines ⊢
    exact ⟨first, rest, rfl, splitOn_printed hplace hmargin hlines⟩

/-- An opening expression on two lines, with a line break behind it. -/
def brokenOpening : Bytes := utf8 "<p>\x7b\x7b#if\nx\x7d\x7d\n</p>"

/-- The expression is shown with the line break inside of it and without the one behind it. -/
theorem lines_shown_exactly_brokenOpening :
    3 ≤ 13 ∧ 13 ≤ brokenOpening.length ∧ LiesOn brokenOpening 3 1 ∧
      Bytes.splitOn Ascii.newline (shown .plain [] ⟨utf8 "t", brokenOpening, 3, 13⟩) =
        [utf8 "t, line 1-2: <p>\x7b\x7b#if", utf8 "             x\x7d\x7d"] := by
  have hrange : 3 ≤ 13 := by decide
  have hstop : 13 ≤ brokenOpening.length := by decide
  obtain ⟨_, _, _, hbegin, hprint⟩ := lines_shown_exactly brokenOpening 3 13 hrange hstop
  obtain ⟨_, hlines⟩ := hprint (by decide) (utf8 "t") []
  obtain ⟨first, rest, htouched, hprinted⟩ := hlines (by decide) (by decide)
  have hexpected : [utf8 "<p>\x7b\x7b#if", utf8 "x\x7d\x7d"] = first :: rest := by
    rw [← htouched]
    decide
  obtain ⟨rfl, rfl⟩ := List.cons.inj hexpected
  refine ⟨hrange, hstop, hbegin, hprinted.trans ?_⟩
  decide +kernel

end Context
end Stencil
