import Stencil.Proofs.Compile.Placement
import Stencil.Proofs.Offset.Tree

/-!
# Compilation inside of the source

Compilation by offsets, and the lines of a fault found by offsets.

Result: `compile_within_source`.  No access of the compilation is out of range.  It ends with a
program, or with a diagnostic whose span lies in the source, so that the lines around it can be
shown.  The expressions in the texts of a tree stand in the source from their opening to their
closing braces.
-/

namespace Stencil
namespace Offset

/-! ## Lines -/

/-- The offset of the last occurrence of a byte, and -1 if there is none. -/
def lastIndex (b : UInt8) : Bytes → Int
  | [] => -1
  | c :: s =>
    if lastIndex b s = -1 then if c = b then 0 else -1
    else lastIndex b s + 1

/-- The part of a text behind its last line break. -/
def lastLine (s : Bytes) : Option Bytes := from? s (lastIndex Ascii.newline s + 1)

/-- The part of a text before its first line break. -/
def firstLine (s : Bytes) : Option Bytes :=
  match index? [Ascii.newline] s with
  | none => some s
  | some i => slice? s 0 i

/-- The lines that the bytes of a source from `start` to `stop` touch. -/
def lines (source : Bytes) (start stop : Int) : Option Lines := do
  let before ← slice? source 0 start
  let range ← slice? source start stop
  let after ← from? source stop
  let head ← lastLine before
  let first := before.count Ascii.newline + 1
  if Bytes.endsWith [Ascii.newline] range then
    let culprit ← slice? range 0 (range.length - 1)
    return ⟨head, culprit, [], first, first + culprit.count Ascii.newline⟩
  else
    return ⟨head, range, ← firstLine after, first, first + range.count Ascii.newline⟩

theorem lastIndex_of_not_mem
    {b : UInt8} {s : Bytes}
    (h : b ∉ s) :
    lastIndex b s = -1 := by
  induction s with
  | nil =>
      rfl
  | cons c s ih =>
      simp only [List.mem_cons, not_or] at h
      rw [lastIndex, if_pos (ih h.2), if_neg (Ne.symm h.1)]

theorem lastIndex_append
    {b : UInt8} {line : Bytes}
    (hline : b ∉ line)
    (front : Bytes) :
    lastIndex b (front ++ b :: line) = front.length := by
  induction front with
  | nil =>
      rw [List.nil_append, lastIndex, if_pos (lastIndex_of_not_mem hline), if_pos rfl]
      rfl
  | cons c front ih =>
      rw [List.cons_append, lastIndex, ih, List.length_cons, if_neg (by omega)]
      exact (Int.natCast_add _ _).symm

theorem takeWhile_of_not_mem
    {line : Bytes}
    (hline : Ascii.newline ∉ line) :
    line.takeWhile (· != Ascii.newline) = line := by
  have hall : ∀ b ∈ line, (b != Ascii.newline) = true :=
    fun b hb => bne_iff_ne.2 fun hnewline => hline (hnewline ▸ hb)
  have h : (line ++ []).takeWhile (· != Ascii.newline) = line ++ [] :=
    List.takeWhile_append_of_pos hall
  rwa [List.append_nil] at h

theorem takeWhile_append_newline
    {line : Bytes}
    (hline : Ascii.newline ∉ line)
    (rest : Bytes) :
    (line ++ Ascii.newline :: rest).takeWhile (· != Ascii.newline) = line := by
  have hall : ∀ b ∈ line, (b != Ascii.newline) = true :=
    fun b hb => bne_iff_ne.2 fun hnewline => hline (hnewline ▸ hb)
  rw [List.takeWhile_append_of_pos hall]
  exact List.append_nil line

theorem lastLine_eq
    (s : Bytes) :
    lastLine s = some (Context.lastLine s) := by
  unfold lastLine Context.lastLine
  by_cases h : Ascii.newline ∈ s
  · obtain ⟨back, rest, hreverse, hback⟩ := List.eq_append_cons_of_mem (List.mem_reverse.2 h)
    have hline : Ascii.newline ∉ back.reverse := fun hmem => hback (List.mem_reverse.1 hmem)
    have hs : s = rest.reverse ++ Ascii.newline :: back.reverse := by
      rw [← List.reverse_reverse s, hreverse]
      simp
    have hfrom : from? (rest.reverse ++ Ascii.newline :: back.reverse) (rest.reverse.length + 1) =
        some back.reverse := by
      have h := from?_append (rest.reverse ++ [Ascii.newline]) back.reverse rfl
      simpa using h
    rw [hreverse, takeWhile_append_newline hback, hs, lastIndex_append hline]
    exact hfrom
  · have hreverse : Ascii.newline ∉ s.reverse := fun hmem => h (List.mem_reverse.1 hmem)
    rw [lastIndex_of_not_mem h, takeWhile_of_not_mem hreverse, List.reverse_reverse]
    exact from?_append [] s rfl

theorem firstLine_eq
    (s : Bytes) :
    firstLine s = some (Context.firstLine s) := by
  unfold firstLine Context.firstLine index?
  by_cases h : Ascii.newline ∈ s
  · obtain ⟨line, rest, rfl, hline⟩ := List.eq_append_cons_of_mem h
    rw [Bytes.cut?_append_cons hline, takeWhile_append_newline hline]
    refine slice?_append [] line (Ascii.newline :: rest) rfl ?_
    simp
  · rw [Bytes.cut?_of_notMem h, takeWhile_of_not_mem h]
    rfl

theorem endsWith_iff
    {b : UInt8} {s : Bytes} :
    Bytes.endsWith [b] s = true ↔ s.getLast? = some b := by
  rw [← List.head?_reverse, Bytes.endsWith, Bytes.startsWith_iff, List.head?_eq_some_iff]
  rfl

theorem slice?_dropLast
    {b : UInt8} {s : Bytes}
    (h : s.getLast? = some b) :
    slice? s 0 (s.length - 1) = some s.dropLast := by
  obtain ⟨front, rfl⟩ := List.getLast?_eq_some_iff.1 h
  rw [List.dropLast_concat]
  refine slice?_append [] front [b] rfl ?_
  simp

/-- The lines of a span inside of the source. -/
theorem lines_eq
    {source : Bytes} {span : Span}
    (h : span.Within source.length) :
    lines source span.start span.stop = some (Context.lines source span.start span.stop) := by
  have hstart : span.start ≤ source.length := Nat.le_trans h.1 h.2
  have hbefore : slice? source 0 span.start = some (source.take span.start) :=
    slice?_of_le (Nat.zero_le span.start) hstart
  have hrange : slice? source span.start span.stop =
      some (Bytes.slice source span.start span.stop) :=
    slice?_of_le h.1 h.2
  have hafter : from? source span.stop = some (source.drop span.stop) := by
    rw [from?, slice?_of_le h.2 (Nat.le_refl _), ← List.length_drop, List.take_length]
  unfold lines Context.lines
  simp only [hbefore, hrange, hafter, lastLine_eq, firstLine_eq, Option.bind_eq_bind,
    Option.bind_some]
  by_cases hlast : (Bytes.slice source span.start span.stop).getLast? = some Ascii.newline
  · rw [if_pos (endsWith_iff.2 hlast), slice?_dropLast hlast]
    simp only [hlast, if_true, Option.bind_some]
    rfl
  · rw [if_neg fun hends => hlast (endsWith_iff.1 hends)]
    simp only [hlast, if_false]
    rfl

/-- The text of lines behind the name of their source and their numbers. -/
def placed (name : Bytes) (style : Style) (indent : Bytes) (l : Lines) : Bytes :=
  let place := name ++ utf8 ", " ++ l.range ++ utf8 " "
  place ++ l.excerpt style (indent ++ List.replicate (glyphs place).length Ascii.blank)

/-- A range inside of its source is shown by its lines. -/
theorem shown_eq
    {d : Diagnostic}
    (h : d.fault.span.Within d.source.length)
    (style : Style) (indent : Bytes) :
    d.report.context.shown style indent =
      placed d.name style indent
        (Context.lines d.source d.fault.span.start d.fault.span.stop) := by
  have hknown : ¬ d.report.context.start = -1 := by
    have hstart : d.report.context.start = d.fault.span.start := rfl
    omega
  have hvalid : d.report.context.isValid = true := by
    simp only [Context.isValid, Bool.and_eq_true, decide_eq_true_eq]
    exact ⟨⟨Int.natCast_nonneg _, Int.ofNat_le.2 h.2⟩, Int.ofNat_le.2 h.1⟩
  rw [Context.shown, if_neg hknown, if_pos hvalid]
  rfl

/-! ## Compilation -/

/-- The program of a template source. -/
def compile (reading : Reading) (names : Names) (name source : Bytes) :
    Checked Diagnostic Program := do
  let ops ← (readTree reading source >>= fun trees => .of (Compile.forest names trees)).adapt
    fun fault => ⟨name, source, fault⟩
  return ⟨name, ops⟩

theorem compile_eq
    (reading : Reading) (names : Names) (name source : Bytes) :
    compile reading names name source = .of (Stencil.compile reading names name source) := by
  have hforest : (readTree reading source >>= fun trees => .of (Compile.forest names trees)) =
      Checked.of (Tree.read reading source >>= Compile.forest names) := by
    rw [readTree_eq]
    exact Checked.of_bind fun trees _ => rfl
  unfold compile Stencil.compile
  rw [hforest, Checked.adapt_of]
  cases Tree.read reading source >>= Compile.forest names <;> rfl

end Offset

/-- Compilation makes no access out of range.  A diagnostic is about a span of the source and shows
the lines there, and the fragments of a tree stand in the source. -/
theorem compile_within_source
    (reading : Reading) (names : Names) (name source : Bytes) :
    Offset.compile reading names name source = .of (compile reading names name source) ∧
    (∀ d, compile reading names name source = .error d →
      d.source = source ∧
      d.fault.span.start ≤ d.fault.span.stop ∧ d.fault.span.stop ≤ source.length ∧
      ∃ lines, Offset.lines source d.fault.span.start d.fault.span.stop = some lines ∧
        ∀ style indent,
          d.report.context.shown style indent = Offset.placed d.name style indent lines) ∧
    (∀ trees, Tree.read reading source = .ok trees → ∀ t ∈ trees, t.Placed source) := by
  refine ⟨Offset.compile_eq reading names name source, fun d hd => ?_, fun trees htrees => ?_⟩
  · obtain ⟨rfl, hspan⟩ := compile_error_placed hd
    exact ⟨rfl, hspan.1, hspan.2, _, Offset.lines_eq hspan, Offset.shown_eq hspan⟩
  · have hplaced := Tree.read_inPlace reading source
    rw [htrees] at hplaced
    exact hplaced

/-- A list whose items climb out of the template. -/
def climbingList : Bytes :=
  utf8 "<ul>\n\x7b\x7b#each items\x7d\x7d<li>\x7b\x7b../../name\x7d\x7d</li>" ++
    utf8 "\x7b\x7b/each\x7d\x7d\n</ul>"

theorem climbingList_within_source :
    ∃ d, compile ⟨(· == utf8 "each"), false⟩ Names.any (utf8 "list") climbingList = .error d ∧
      d.fault.span = ⟨24, 38⟩ ∧ d.fault.span.stop ≤ climbingList.length ∧
      ∃ lines, Offset.lines climbingList d.fault.span.start d.fault.span.stop = some lines ∧
        ∀ style indent,
          d.report.context.shown style indent = Offset.placed d.name style indent lines := by
  have hspan : (match compile ⟨(· == utf8 "each"), false⟩ Names.any (utf8 "list") climbingList with
      | .error d => some d.fault.span
      | .ok _ => none) = some ⟨24, 38⟩ := by
    decide +kernel
  have hwithin := compile_within_source ⟨(· == utf8 "each"), false⟩ Names.any (utf8 "list")
    climbingList
  cases hcompile : compile ⟨(· == utf8 "each"), false⟩ Names.any (utf8 "list") climbingList with
  | ok program =>
      rw [hcompile] at hspan
      cases hspan
  | error d =>
      rw [hcompile] at hspan
      obtain ⟨_, _, hstop, hlines⟩ := hwithin.2.1 d hcompile
      exact ⟨d, rfl, Option.some.inj hspan, hstop, hlines⟩

end Stencil
