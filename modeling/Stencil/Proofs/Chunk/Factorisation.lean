import Mathlib.Data.List.Infix
import Stencil.Proofs.Chunk

/-!
# Texts as chunks

`Chunk.Fits` says when a chunk may be cut from the front of a text, by what the text holds and not by
how it is scanned:

* a literal run is not empty and goes up to the first two opening braces, or to the end;
* `{{{` goes up to the first `}}}` behind it, and `{{!--` up to the first `--}}` behind it;
* any other `{{` goes up to the `}}` at which the count of `{{` less `}}`, read from left to right,
  is zero again for the first time.

`Tiles` cuts chunks one after the other.  A text has at most one factorisation into chunks, and
`scan` finds it; otherwise it stops where an expression begins that has no end.

Results: `Tiles.unique` and `tiles_scan`.
-/

namespace Stencil

/-! ## First occurrences -/

namespace Bytes

/-- `p` begins nowhere in `l ++ rest` in front of `rest`. -/
def Clear (p l rest : Bytes) : Prop :=
  ∀ l' r', l ++ rest = l' ++ (p ++ r') → l.length ≤ l'.length

theorem clear_nil
    (p rest : Bytes) :
    Clear p [] rest :=
  fun l' _ _ => Nat.zero_le l'.length

theorem Clear.cons
    {p l rest : Bytes} {b : UInt8}
    (hstart : startsWith p (b :: (l ++ rest)) = false)
    (h : Clear p l rest) :
    Clear p (b :: l) rest := by
  intro l' r' heq
  cases l' with
  | nil =>
      exact absurd (startsWith_iff.2 ⟨r', heq⟩) (Bool.eq_false_iff.1 hstart)
  | cons b' l' =>
      have htail : l ++ rest = l' ++ (p ++ r') := (List.cons.inj heq).2
      exact Nat.succ_le_succ (h l' r' htail)

/-- What is cut off in front of `p` ends where `p` begins for the first time. -/
theorem clear_of_cut?
    {p s l r : Bytes}
    (h : cut? p s = some (l, r)) :
    Clear p l (p ++ r) := by
  induction s generalizing l with
  | nil =>
      rw [cut?] at h
      split at h
      · cases h
        exact clear_nil p _
      · cases h
  | cons b s ih =>
      rw [cut?] at h
      split at h
      · cases h
        exact clear_nil p _
      · next hnone =>
          obtain ⟨⟨l', r'⟩, hcut, heq⟩ := Option.map_eq_some_iff.1 h
          cases heq
          have hs : s = l' ++ (p ++ r) := by
            rw [eq_append_of_cut? hcut, List.append_assoc]
          refine (ih hcut).cons ?_
          rw [← hs, startsWith, hnone]
          rfl

/-- Where nothing is cut off, `p` does not occur. -/
theorem ne_append_of_cut?_eq_none
    {p s : Bytes}
    (h : cut? p s = none)
    (l r : Bytes) :
    s ≠ l ++ (p ++ r) := by
  induction s generalizing l with
  | nil =>
      rintro heq
      obtain ⟨-, hrest⟩ := List.append_eq_nil_iff.1 heq.symm
      obtain ⟨rfl, -⟩ := List.append_eq_nil_iff.1 hrest
      cases h
  | cons b s ih =>
      rw [cut?] at h
      split at h
      · cases h
      · next hnone =>
          intro heq
          cases l with
          | nil =>
              have hsome : after? p (b :: s) = some r := after?_eq_some_iff.2 heq
              rw [hsome] at hnone
              cases hnone
          | cons b' l =>
              exact ih (Option.map_eq_none_iff.1 h) l (List.cons.inj heq).2

/-- Two first occurrences are at the same place; the end of the text counts as one. -/
theorem Clear.append_inj
    {p l rest l' rest' : Bytes}
    (h : Clear p l rest)
    (h' : Clear p l' rest')
    (hrest : rest = [] ∨ startsWith p rest = true)
    (hrest' : rest' = [] ∨ startsWith p rest' = true)
    (heq : l ++ rest = l' ++ rest') :
    l = l' ∧ rest = rest' := by
  have hle : ∀ {l rest l' rest' : Bytes}, Clear p l rest →
      (rest' = [] ∨ startsWith p rest' = true) → l ++ rest = l' ++ rest' →
      l.length ≤ l'.length := by
    rintro l rest l' rest' h (rfl | hstart) heq
    · have hlength := congrArg List.length heq
      simp only [List.length_append, List.length_nil] at hlength
      omega
    · obtain ⟨more, rfl⟩ := startsWith_iff.1 hstart
      exact h l' more heq
  exact List.append_inj heq (Nat.le_antisymm (hle h hrest' heq) (hle h' hrest heq.symm))

end Bytes

/-! ## Braces in balance -/

/-- What a text is read as from left to right: pairs of braces and other bytes. -/
inductive Brace where
  | opening
  | closing
  | other (b : UInt8)

namespace Brace

/-- The bytes that are read. -/
def source : Brace → Bytes
  | opening => [Ascii.lbrace, Ascii.lbrace]
  | closing => [Ascii.rbrace, Ascii.rbrace]
  | other b => [b]

/-- What is added to the count. -/
def weight : Brace → Int
  | opening => 1
  | closing => -1
  | other _ => 0

/-- The opening pairs less the closing ones. -/
def count : List Brace → Int
  | [] => 0
  | t :: rest => t.weight + count rest

/-- The count is at a level at the end, and not before. -/
def Falls (level : Int) (ts : List Brace) : Prop :=
  count ts = level ∧ ∀ front, front <+: ts → count front = level → front = ts

/-- The count is never at a level. -/
def Misses (level : Int) (ts : List Brace) : Prop := ∀ front, front <+: ts → count front ≠ level

/-- The count is zero at the end, and not before, except where nothing is read yet. -/
def Returns (ts : List Brace) : Prop :=
  count ts = 0 ∧ ∀ front, front <+: ts → front ≠ [] → count front = 0 → front = ts

theorem falls_nil :
    Falls 0 [] :=
  ⟨rfl, fun _ hfront _ => List.prefix_nil.1 hfront⟩

theorem Falls.cons
    {level level' : Int} {ts : List Brace}
    (h : Falls level ts)
    (t : Brace)
    (hlevel : level' = t.weight + level)
    (hne : level' ≠ 0) :
    Falls level' (t :: ts) := by
  refine ⟨by rw [count, h.1, hlevel], fun front hfront hcount => ?_⟩
  cases front with
  | nil =>
      exact absurd hcount.symm hne
  | cons t' front =>
      obtain ⟨rfl, hprefix⟩ := List.cons_prefix_cons.1 hfront
      rw [count] at hcount
      rw [h.2 front hprefix (by omega)]

theorem Misses.cons
    {level level' : Int} {ts : List Brace}
    (h : Misses level ts)
    (t : Brace)
    (hlevel : level' = t.weight + level)
    (hne : level' ≠ 0) :
    Misses level' (t :: ts) := by
  intro front hfront hcount
  cases front with
  | nil =>
      exact absurd hcount.symm hne
  | cons t' front =>
      obtain ⟨rfl, hprefix⟩ := List.cons_prefix_cons.1 hfront
      rw [count] at hcount
      exact h front hprefix (by omega)

theorem Falls.returns
    {ts : List Brace}
    (h : Falls (-1) ts) :
    Returns (opening :: ts) := by
  refine ⟨by rw [count, h.1]; rfl, fun front hfront hne hcount => ?_⟩
  cases front with
  | nil =>
      exact absurd rfl hne
  | cons t front =>
      obtain ⟨rfl, hprefix⟩ := List.cons_prefix_cons.1 hfront
      simp only [count, weight] at hcount
      rw [h.2 front hprefix (by omega)]

end Brace

/-- A text read from left to right. -/
def braces : Bytes → List Brace
  | [] => []
  | Ascii.lbrace :: Ascii.lbrace :: s => .opening :: braces s
  | Ascii.rbrace :: Ascii.rbrace :: s => .closing :: braces s
  | b :: s => .other b :: braces s

theorem flatMap_source_braces
    (s : Bytes) :
    (braces s).flatMap Brace.source = s := by
  fun_induction braces s with
  | case1 =>
      rfl
  | case2 s ih | case3 s ih | case4 b s _ _ ih =>
      rw [List.flatMap_cons, ih]
      rfl

theorem braces_inj
    {s t : Bytes}
    (h : braces s = braces t) :
    s = t := by
  rw [← flatMap_source_braces s, h, flatMap_source_braces]

/-- A byte that begins no pair is read alone.  The two conditions on closing braces are those of the
two levels at which they may be met. -/
theorem braces_other
    {n : Nat} {b : UInt8} {s : Bytes}
    (hzero : ∀ s', n = 0 → b = Ascii.rbrace → s = Ascii.rbrace :: s' → False)
    (hsucc : ∀ m s', n = Nat.succ m → b = Ascii.rbrace → s = Ascii.rbrace :: s' → False)
    (hopen : ∀ s', b = Ascii.lbrace → s = Ascii.lbrace :: s' → False) :
    braces (b :: s) = .other b :: braces s := by
  have hclose : ∀ s', b = Ascii.rbrace → s = Ascii.rbrace :: s' → False := by
    cases n with
    | zero =>
        exact fun s' => hzero s' rfl
    | succ m =>
        exact fun s' => hsucc m s' rfl
  rw [braces]
  · exact hopen
  · exact hclose

/-- One more pair or byte in front of what has been read up to a level. -/
theorem exists_falls_cons
    {level level' : Int} {s s' rest : Bytes}
    (t : Brace)
    (hread : braces s = t :: braces s')
    (hlevel : level' = t.weight + level)
    (hne : level' ≠ 0)
    (h : ∃ ts, braces s' = ts ++ braces rest ∧ Brace.Falls level ts) :
    ∃ ts, braces s = ts ++ braces rest ∧ Brace.Falls level' ts := by
  obtain ⟨ts, hts, hfalls⟩ := h
  exact ⟨t :: ts, by rw [hread, hts, List.cons_append], hfalls.cons t hlevel hne⟩

/-- What is closed has been read up to where the count falls below the level for the first time. -/
theorem exists_falls_of_closing?
    {n : Nat} {s payload rest : Bytes}
    (h : closing? n s = some (payload, rest)) :
    ∃ ts, braces s = ts ++ braces rest ∧ Brace.Falls (-(n + 1)) ts := by
  fun_induction closing? n s generalizing payload with
  | case1 =>
      cases h
  | case2 s =>
      cases h
      exact ⟨[.closing], rfl, Brace.falls_nil.cons .closing rfl (by decide)⟩
  | case3 n s ih =>
      obtain ⟨⟨payload', rest'⟩, hclosing, heq⟩ := Option.map_eq_some_iff.1 h
      cases heq
      exact exists_falls_cons .closing (by rw [braces]) (by simp only [Brace.weight]; omega)
        (by omega) (ih hclosing)
  | case4 n s ih =>
      obtain ⟨⟨payload', rest'⟩, hclosing, heq⟩ := Option.map_eq_some_iff.1 h
      cases heq
      exact exists_falls_cons .opening (by rw [braces]) (by simp only [Brace.weight]; omega)
        (by omega) (ih hclosing)
  | case5 n b s hzero hsucc hopen ih =>
      obtain ⟨⟨payload', rest'⟩, hclosing, heq⟩ := Option.map_eq_some_iff.1 h
      cases heq
      exact exists_falls_cons (.other b) (braces_other hzero hsucc hopen)
        (by simp only [Brace.weight]; omega) (by omega) (ih hclosing)

/-- Where nothing is closed, the count never falls below the level. -/
theorem misses_of_closing?_eq_none
    {n : Nat} {s : Bytes}
    (h : closing? n s = none) :
    Brace.Misses (-(n + 1)) (braces s) := by
  fun_induction closing? n s with
  | case1 n =>
      intro front hfront
      rw [braces, List.prefix_nil] at hfront
      rw [hfront, Brace.count]
      omega
  | case2 s =>
      cases h
  | case3 n s ih =>
      rw [braces]
      exact (ih (Option.map_eq_none_iff.1 h)).cons .closing
        (by simp only [Brace.weight]; omega) (by omega)
  | case4 n s ih =>
      rw [braces]
      exact (ih (Option.map_eq_none_iff.1 h)).cons .opening
        (by simp only [Brace.weight]; omega) (by omega)
  | case5 n b s hzero hsucc hopen ih =>
      rw [braces_other hzero hsucc hopen]
      exact (ih (Option.map_eq_none_iff.1 h)).cons (.other b)
        (by simp only [Brace.weight]; omega) (by omega)

/-! ## Factorisations -/

namespace Chunk

/-- Whether a chunk may be cut off in front of a text. -/
def Fits (rest : Bytes) : Chunk → Prop
  | literal s =>
    s ≠ [] ∧ Bytes.Clear Form.plain.opener s rest ∧
      (rest = [] ∨ Bytes.startsWith Form.plain.opener rest = true)
  | expression .triple payload =>
    Bytes.Clear Form.triple.closer payload (Form.triple.closer ++ rest)
  | expression .comment payload =>
    Bytes.Clear Form.comment.closer payload (Form.comment.closer ++ rest)
  | expression .plain payload =>
    Bytes.startsWith Form.triple.opener ((expression .plain payload).source ++ rest) = false ∧
      Bytes.startsWith Form.comment.opener ((expression .plain payload).source ++ rest) = false ∧
      ∃ ts, braces ((expression .plain payload).source ++ rest) = ts ++ braces rest ∧
        Brace.Returns ts

end Chunk

/-- Chunks cut from the front of a text, one after the other, and what they leave over. -/
inductive Tiles : (text : Bytes) → List Chunk → (rest : Bytes) → Prop
  | nil {rest : Bytes} : Tiles rest [] rest
  | cons {c : Chunk} {more : Bytes} {chunks : List Chunk} {rest : Bytes} :
      c.Fits more →
      Tiles more chunks rest →
      Tiles (c.source ++ more) (c :: chunks) rest

/-- A text that begins an expression which has no end. -/
def Unclosed (s : Bytes) : Prop :=
  Bytes.startsWith Form.plain.opener s = true ∧
    ∀ payload more, s = (Chunk.expression (formOf s) payload).source ++ more →
      ¬ (Chunk.expression (formOf s) payload).Fits more

namespace Chunk

theorem startsWith_source
    (form : Form) (payload more : Bytes) :
    Bytes.startsWith form.opener ((expression form payload).source ++ more) = true := by
  refine Bytes.startsWith_iff.2 ⟨payload ++ form.closer ++ more, ?_⟩
  simp only [source, List.append_assoc]

theorem startsWith_plain_source
    (form : Form) (payload more : Bytes) :
    Bytes.startsWith Form.plain.opener ((expression form payload).source ++ more) = true := by
  obtain ⟨rest, hrest⟩ := Bytes.startsWith_iff.1 (startsWith_source form payload more)
  rw [hrest]
  cases form <;> rfl

/-- The form of an expression is told by how it begins. -/
theorem Fits.formOf_eq
    {form : Form} {payload more : Bytes}
    (h : (expression form payload).Fits more) :
    formOf ((expression form payload).source ++ more) = form := by
  have hstart := startsWith_source form payload more
  cases form with
  | triple =>
      rw [formOf, if_pos hstart]
  | comment =>
      have htriple : Bytes.startsWith Form.triple.opener
          ((expression .comment payload).source ++ more) = false := rfl
      rw [formOf, if_neg (Bool.eq_false_iff.1 htriple), if_pos hstart]
  | plain =>
      rw [formOf, if_neg (Bool.eq_false_iff.1 h.1), if_neg (Bool.eq_false_iff.1 h.2.1)]

/-- No literal run is cut off where an expression begins. -/
theorem Fits.not_startsWith
    {s more : Bytes}
    (h : (literal s).Fits more) :
    Bytes.startsWith Form.plain.opener ((literal s).source ++ more) = false := by
  rw [Bool.eq_false_iff]
  intro hstart
  obtain ⟨rest, hrest⟩ := Bytes.startsWith_iff.1 hstart
  exact h.1 (List.eq_nil_of_length_eq_zero (Nat.le_zero.1 (h.2.1 [] rest hrest)))

/-- A literal run holds no expression. -/
theorem Fits.not_occurs
    {s more : Bytes}
    (h : (literal s).Fits more) :
    Bytes.occurs Form.plain.opener s = false := by
  rw [Bool.eq_false_iff]
  intro hoccurs
  obtain ⟨⟨l, r⟩, hcut⟩ := Option.isSome_iff_exists.1 hoccurs
  have hs := Bytes.eq_append_of_cut? hcut
  have hle := h.2.1 l (r ++ more) (by rw [hs]; simp only [List.append_assoc])
  have hopener : Form.plain.opener.length = 2 := rfl
  rw [hs] at hle
  simp only [List.length_append, hopener] at hle
  omega

theorem Fits.source_ne_nil
    {c : Chunk} {more : Bytes}
    (h : c.Fits more) :
    c.source ≠ [] := by
  cases c with
  | literal s =>
      exact h.1
  | expression form payload =>
      cases form <;> exact List.cons_ne_nil _ _

/-- Two expressions that begin a text are the same. -/
theorem Fits.expression_inj
    {form : Form} {payload payload' more more' : Bytes}
    (h : (expression form payload).Fits more)
    (h' : (expression form payload').Fits more')
    (heq : (expression form payload).source ++ more = (expression form payload').source ++ more') :
    payload = payload' ∧ more = more' := by
  have hbody : payload ++ (form.closer ++ more) = payload' ++ (form.closer ++ more') := by
    simpa only [source, List.append_assoc, List.append_cancel_left_eq] using heq
  have hcloser : ∀ rest, form.closer ++ rest = [] ∨
      Bytes.startsWith form.closer (form.closer ++ rest) = true :=
    fun rest => Or.inr (Bytes.startsWith_iff.2 ⟨rest, rfl⟩)
  cases form with
  | triple | comment =>
      obtain ⟨hpayload, hrest⟩ :=
        Bytes.Clear.append_inj h h' (hcloser more) (hcloser more') hbody
      exact ⟨hpayload, List.append_cancel_left hrest⟩
  | plain =>
      obtain ⟨ts, hts, hreturns⟩ := h.2.2
      obtain ⟨ts', hts', hreturns'⟩ := h'.2.2
      rw [heq] at hts
      have hne : ∀ {ts : List Brace} {payload more : Bytes},
          braces ((expression .plain payload).source ++ more) = ts ++ braces more → ts ≠ [] := by
        rintro ts payload more hread rfl
        have hsource : (expression .plain payload).source ++ more = [] ++ more := braces_inj hread
        exact List.cons_ne_nil _ _ (List.append_cancel_right hsource)
      -- Both are read from the front of the text, so one of them is read first.
      have hsame : ts = ts' := by
        have hprefix : ts <+: braces ((expression .plain payload').source ++ more') :=
          ⟨braces more, hts.symm⟩
        have hprefix' : ts' <+: braces ((expression .plain payload').source ++ more') :=
          ⟨braces more', hts'.symm⟩
        rcases List.prefix_or_prefix_of_prefix hprefix hprefix' with hfront | hfront
        · exact hreturns'.2 ts hfront (hne (heq ▸ hts)) hreturns.1
        · exact (hreturns.2 ts' hfront (hne hts') hreturns'.1).symm
      rw [hts', hsame] at hts
      have hmore := braces_inj (List.append_cancel_left hts)
      rw [hmore] at hbody
      exact ⟨List.append_cancel_right hbody, hmore.symm⟩

/-- A text begins with at most one chunk. -/
theorem Fits.inj
    {c d : Chunk} {more more' : Bytes}
    (hc : c.Fits more)
    (hd : d.Fits more')
    (heq : c.source ++ more = d.source ++ more') :
    c = d ∧ more = more' := by
  cases c with
  | literal s =>
      cases d with
      | literal s' =>
          obtain ⟨rfl, rfl⟩ := Bytes.Clear.append_inj hc.2.1 hd.2.1 hc.2.2 hd.2.2 heq
          exact ⟨rfl, rfl⟩
      | expression form payload =>
          have hstart := hc.not_startsWith
          rw [heq, startsWith_plain_source] at hstart
          cases hstart
  | expression form payload =>
      cases d with
      | literal s' =>
          have hstart := hd.not_startsWith
          rw [← heq, startsWith_plain_source] at hstart
          cases hstart
      | expression form' payload' =>
          have hform := hc.formOf_eq
          rw [heq, hd.formOf_eq] at hform
          subst hform
          obtain ⟨rfl, rfl⟩ := hc.expression_inj hd heq
          exact ⟨rfl, rfl⟩

end Chunk

/-- A text that no chunk can be cut from. -/
def Stuck (s : Bytes) : Prop := ∀ c more, Chunk.Fits more c → s ≠ c.source ++ more

theorem stuck_nil :
    Stuck [] := by
  intro c more hc heq
  exact hc.source_ne_nil (List.append_eq_nil_iff.1 heq.symm).1

theorem Unclosed.stuck
    {s : Bytes}
    (h : Unclosed s) :
    Stuck s := by
  intro c more hc heq
  cases c with
  | literal run =>
      have hstart := hc.not_startsWith
      rw [← heq, h.1] at hstart
      cases hstart
  | expression form payload =>
      have hform : formOf s = form := by
        rw [heq]
        exact hc.formOf_eq
      subst hform
      exact h.2 payload more heq hc

/-- Chunks that are cut from a text until no more can be are determined by it, and so is the rest. -/
theorem Tiles.unique
    {s rest rest' : Bytes} {chunks chunks' : List Chunk}
    (h : Tiles s chunks rest)
    (h' : Tiles s chunks' rest')
    (hrest : Stuck rest)
    (hrest' : Stuck rest') :
    chunks = chunks' ∧ rest = rest' := by
  induction h generalizing chunks' with
  | nil =>
      cases h' with
      | nil =>
          exact ⟨rfl, rfl⟩
      | cons hd _ =>
          exact absurd rfl (hrest _ _ hd)
  | @cons c more chunks rest hc _ ih =>
      generalize hs : c.source ++ more = s at h'
      cases h' with
      | nil =>
          exact absurd hs.symm (hrest' _ _ hc)
      | cons hd htiles =>
          obtain ⟨rfl, rfl⟩ := hc.inj hd hs
          obtain ⟨rfl, rfl⟩ := ih htiles hrest
          exact ⟨rfl, rfl⟩

/-! ## Scanning -/

theorem not_startsWith_of_formOf_eq_plain
    {s : Bytes}
    (h : formOf s = .plain) :
    Bytes.startsWith Form.triple.opener s = false ∧
      Bytes.startsWith Form.comment.opener s = false := by
  unfold formOf at h
  split at h
  · cases h
  · next htriple =>
      split at h
      · cases h
      · next hcomment =>
          exact ⟨Bool.eq_false_iff.2 htriple, Bool.eq_false_iff.2 hcomment⟩

/-- An expression that is found has the end that its form asks for. -/
theorem fits_of_payload?
    {s payload more : Bytes}
    (hstart : Bytes.startsWith Form.plain.opener s = true)
    (h : payload? (formOf s) s = some (payload, more)) :
    (Chunk.expression (formOf s) payload).Fits more := by
  have hs := eq_append_of_payload? (startsWith_formOf hstart) h
  obtain ⟨body, hbody⟩ := Bytes.startsWith_iff.1 (startsWith_formOf hstart)
  unfold payload? at h
  generalize hform : formOf s = form at hs hbody h ⊢
  rw [hbody, List.drop_left] at h
  cases form with
  | triple | comment =>
      exact Bytes.clear_of_cut? h
  | plain =>
      obtain ⟨ts, hread, hfalls⟩ := exists_falls_of_closing? h
      obtain ⟨htriple, hcomment⟩ := not_startsWith_of_formOf_eq_plain hform
      have hopening : braces (Form.plain.opener ++ body) = .opening :: braces body := rfl
      refine ⟨hs ▸ htriple, hs ▸ hcomment, .opening :: ts, ?_, hfalls.returns⟩
      rw [← hs, hbody, hopening, hread]
      rfl

/-- An expression that is not found has no end. -/
theorem unclosed_of_payload?_eq_none
    {s : Bytes}
    (hstart : Bytes.startsWith Form.plain.opener s = true)
    (h : payload? (formOf s) s = none) :
    Unclosed s := by
  refine ⟨hstart, fun payload more heq hfits => ?_⟩
  obtain ⟨body, hbody⟩ := Bytes.startsWith_iff.1 (startsWith_formOf hstart)
  unfold payload? at h
  generalize formOf s = form at heq hbody h hfits
  have hsource : body = payload ++ (form.closer ++ more) := by
    rw [heq, Chunk.source] at hbody
    simpa only [List.append_assoc, List.append_cancel_left_eq] using hbody.symm
  rw [hbody, List.drop_left] at h
  cases form with
  | triple | comment =>
      exact Bytes.ne_append_of_cut?_eq_none h payload more hsource
  | plain =>
      obtain ⟨ts, hread, hcount, -⟩ := hfits.2.2
      have hopening : braces (Form.plain.opener ++ body) = .opening :: braces body := rfl
      rw [← heq, hbody, hopening] at hread
      cases ts with
      | nil =>
          have hmore := braces_inj (hopening.trans hread)
          have hlength := congrArg List.length hmore
          have hopener : Form.plain.opener.length = 2 := rfl
          simp only [hsource, List.length_append, hopener] at hlength
          omega
      | cons t ts =>
          obtain ⟨rfl, hbraces⟩ := List.cons.inj hread
          simp only [Brace.count, Brace.weight] at hcount
          have hmisses := misses_of_closing?_eq_none h ts ⟨braces more, hbraces.symm⟩
          omega

/-- A literal run goes up to where an expression begins. -/
theorem clear_literalRun
    (s : Bytes) :
    Bytes.Clear Form.plain.opener (literalRun s).1 (literalRun s).2 := by
  induction s with
  | nil =>
      exact Bytes.clear_nil _ _
  | cons b s ih =>
      rw [literalRun]
      split
      · exact Bytes.clear_nil _ _
      · next hstart =>
          refine ih.cons ?_
          rw [literalRun_append]
          exact Bool.eq_false_iff.2 hstart

theorem Tiles.literalRun
    {s rest : Bytes} {sc : Scan}
    (h : Tiles (Stencil.literalRun s).2 sc.chunks rest) :
    Tiles s (Scan.literal (Stencil.literalRun s).1 sc).chunks rest := by
  have hs := literalRun_append s
  unfold Scan.literal
  split
  · next hrun =>
      rw [List.isEmpty_iff.1 hrun, List.nil_append] at hs
      rwa [hs] at h
  · next hrun =>
      have hend : (Stencil.literalRun s).2 = [] ∨
          Bytes.startsWith Form.plain.opener (Stencil.literalRun s).2 = true := by
        by_cases hnil : (Stencil.literalRun s).2 = []
        · exact Or.inl hnil
        · exact Or.inr (startsWith_literalRun hnil)
      have hfits : (Chunk.literal (Stencil.literalRun s).1).Fits (Stencil.literalRun s).2 :=
        ⟨fun hnil => hrun (List.isEmpty_iff.2 hnil), clear_literalRun s, hend⟩
      have htiles := Tiles.cons hfits h
      rwa [Chunk.source, hs] at htiles

/-- Scanning finds the chunks of a text up to its end, or up to an expression that has none. -/
theorem tiles_scan
    (s : Bytes) :
    ∃ rest, Tiles s (scan s).chunks rest ∧
      ((scan s).unclosed = none ∧ rest = [] ∨
        (scan s).unclosed = some (formOf rest) ∧ Unclosed rest) := by
  fun_induction scan s with
  | case1 s run rest hrest =>
      refine ⟨rest, Tiles.literalRun .nil, Or.inl ⟨?_, hrest⟩⟩
      rw [Scan.unclosed_literal]
  | case2 s run rest hrest hpayload =>
      refine ⟨rest, Tiles.literalRun .nil, Or.inr ⟨?_, ?_⟩⟩
      · rw [Scan.unclosed_literal]
      · exact unclosed_of_payload?_eq_none (startsWith_literalRun hrest) hpayload
  | case3 s run rest hrest payload more hpayload next ih =>
      obtain ⟨left, htiles, hleft⟩ := ih
      have hstart := startsWith_literalRun hrest
      have hfits := fits_of_payload? hstart hpayload
      have hexpression := eq_append_of_payload? (startsWith_formOf hstart) hpayload
      refine ⟨left, Tiles.literalRun ?_, ?_⟩
      · have hcons := Tiles.cons hfits htiles
        rwa [← hexpression] at hcons
      · rw [Scan.unclosed_literal]
        exact hleft

end Stencil
