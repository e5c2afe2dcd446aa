import Stencil.Proofs.Path.Reading

/-!
# The grammar of paths

A path is any number of steps outwards, `../`, and an ending: nothing, `..`, `this` or `.`, or names
with dots in between that stand behind `@`, `this.`, `./` or nothing.  The names of an ending
without a sign may begin with `this`, and then the same text has another derivation, in which `this`
is the context.  That derivation is preferred, and with it the text has one meaning.

Algorithm: a preferred derivation is read back, and whatever is read has a derivation.  Since every
text with a derivation has a preferred one, reading is decided by the preferred derivations alone.

Result: `read_accepts_exactly_grammar`.
-/

namespace Stencil
namespace PathExpr

/-! ## Derivations -/

/-- A name in a path: not empty, and without dots and bytes with another meaning. -/
structure Segment (s : Bytes) : Prop where
  notEmpty : s ≠ []
  plain : ∀ b ∈ s, b ∉ utf8 ". \t\r\n\"'\x7b\x7d=()<>@/"

/-- What stands behind the steps outwards of a path. -/
inductive Ending where
  | nothing
  /-- One more step outwards, without a slash. -/
  | outwards
  | this
  | dot
  /-- A metadata variable and property names. -/
  | metadata (name : Bytes) (tail : List Bytes)
  /-- Property names behind a sign of the context, which may be missing. -/
  | dotted (sign first : Bytes) (rest : List Bytes)

namespace Ending

/-- The text of an ending. -/
def text : Ending → Bytes
  | nothing => []
  | outwards => utf8 ".."
  | this => utf8 "this"
  | dot => utf8 "."
  | metadata name tail => utf8 "@" ++ Bytes.join (utf8 ".") (name :: tail)
  | dotted sign first rest => sign ++ Bytes.join (utf8 ".") (first :: rest)

/-- The endings that the grammar allows behind some steps outwards. -/
def Allowed (steps : Nat) : Ending → Prop
  | nothing => 1 ≤ steps
  | outwards | this | dot => True
  | metadata name tail => ∀ s ∈ name :: tail, Segment s
  | dotted sign first rest =>
    sign ∈ [[], utf8 "this.", utf8 "./"] ∧ ∀ s ∈ first :: rest, Segment s

/-- The endings in which `this` at the front is the context. -/
def Preferred : Ending → Prop
  | dotted [] first _ => first ≠ utf8 "this"
  | _ => True

/-- The steps outwards that an ending adds. -/
def steps : Ending → Nat
  | outwards => 1
  | _ => 0

/-- What an ending leads to, from the context that the steps outwards lead to. -/
def target : Ending → PathExpr
  | nothing | outwards | this | dot => .this
  | metadata name tail => .metadata name tail
  | dotted _ first rest => .dotted (first :: rest)

/-- What an ending means behind some steps outwards. -/
def meaning (n : Nat) (e : Ending) : PathExpr :=
  if n + e.steps = 0 then e.target else .parent (n + e.steps) e.target

end Ending

/-! ## Names -/

theorem segment_iff
    {s : Bytes} :
    Segment s ↔ isSegment s = true ∧ Ascii.dot ∉ s := by
  have hbytes : utf8 ". \t\r\n\"'\x7b\x7d=()<>@/" = Ascii.dot :: reserved := by decide
  simp only [isSegment, Bool.and_eq_true, Bool.not_eq_true', List.isEmpty_eq_false_iff,
    List.all_eq_true, List.contains_eq_mem, decide_eq_false_iff_not]
  constructor
  · rintro ⟨hempty, hplain⟩
    rw [hbytes] at hplain
    exact ⟨⟨hempty, fun b hb hmem => hplain b hb (List.mem_cons_of_mem _ hmem)⟩,
      fun hdot => hplain _ hdot List.mem_cons_self⟩
  · rintro ⟨⟨hempty, hplain⟩, hdot⟩
    refine ⟨hempty, fun b hb hmem => ?_⟩
    rw [hbytes] at hmem
    rcases List.mem_cons.1 hmem with rfl | hreserved
    · exact hdot hb
    · exact hplain b hb hreserved

/-- Names with dots in between are split where they were joined. -/
theorem splitOn_join_segments
    {first : Bytes} {rest : List Bytes}
    (h : ∀ s ∈ first :: rest, Segment s) :
    Bytes.splitOn Ascii.dot (Bytes.join (utf8 ".") (first :: rest)) = first :: rest :=
  Bytes.splitOn_join fun s hs => (segment_iff.1 (h s hs)).2

theorem readSegments_segments
    {first : Bytes} {rest : List Bytes}
    (h : ∀ s ∈ first :: rest, Segment s)
    (text : Bytes) :
    readSegments (Bytes.join (utf8 ".") (first :: rest)) text = .ok (first :: rest) :=
  readSegments_join (fun s hs => segment_iff.1 (h s hs)) text

theorem readSegments_eq_ok_iff
    {s text : Bytes} {segments : List Bytes} :
    readSegments s text = .ok segments ↔
      segments ≠ [] ∧ (∀ x ∈ segments, Segment x) ∧ s = Bytes.join (utf8 ".") segments := by
  constructor
  · intro h
    unfold readSegments at h
    simp only at h
    split at h
    · next hall =>
        cases h
        refine ⟨Bytes.splitOn_ne_nil _ _, fun x hx => ?_, (Bytes.join_splitOn _ s).symm⟩
        exact segment_iff.2 ⟨List.all_eq_true.1 hall x hx, Bytes.notMem_of_mem_splitOn hx⟩
    · cases h
  · rintro ⟨hne, hsegments, rfl⟩
    obtain ⟨first, rest, rfl⟩ := List.exists_cons_of_ne_nil hne
    exact readSegments_segments hsegments text

/-- Names with dots in between begin with a byte that is no sign. -/
theorem exists_cons_of_segments
    {first : Bytes} {rest : List Bytes}
    (h : ∀ s ∈ first :: rest, Segment s) :
    ∃ b more, Bytes.join (utf8 ".") (first :: rest) = b :: more ∧
      b ≠ Ascii.dot ∧ b ≠ Ascii.atSign ∧ b ≠ Ascii.greater := by
  have hfirst := h first List.mem_cons_self
  obtain ⟨b, more, rfl⟩ := List.exists_cons_of_ne_nil hfirst.notEmpty
  have hb := hfirst.plain b List.mem_cons_self
  have hne : ∀ c ∈ utf8 ". \t\r\n\"'\x7b\x7d=()<>@/", b ≠ c := fun c hc heq => hb (heq ▸ hc)
  refine ⟨b, ?_⟩
  cases rest with
  | nil =>
      exact ⟨more, rfl, hne _ (by decide), hne _ (by decide), hne _ (by decide)⟩
  | cons next rest =>
      exact ⟨_, rfl, hne _ (by decide), hne _ (by decide), hne _ (by decide)⟩

/-! ## Endings that do not climb -/

/-- An ending without a sign is read as names when they do not begin with `this`. -/
theorem readLocal_of_unsigned
    {first : Bytes} {rest : List Bytes}
    (h : ∀ s ∈ first :: rest, Segment s)
    (hfirst : first ≠ utf8 "this") :
    readLocal (Bytes.join (utf8 ".") (first :: rest)) = .ok (.dotted (first :: rest)) := by
  have hsplit := splitOn_join_segments h
  have hread := readSegments_segments h
  obtain ⟨b, more, hcons, hdot, hsign, hgreater⟩ := exists_cons_of_segments h
  rw [hcons] at hsplit hread ⊢
  -- Where the text begins with the name of the context, the first name would be `this`.
  have hthis : b :: more ≠ utf8 "this" := fun heq => by
    rw [heq] at hsplit
    exact hfirst (List.cons.inj hsplit).1.symm
  have hpoint : b :: more ≠ utf8 "." := fun heq => hdot (List.cons.inj heq).1
  have hlong : Bytes.after? (utf8 "this.") (b :: more) = none := by
    refine Option.eq_none_iff_forall_ne_some.2 fun names hnames => ?_
    have heq := Bytes.after?_eq_some_iff.1 hnames
    have hpieces : Bytes.splitOn Ascii.dot (utf8 "this." ++ names) =
        utf8 "this" :: Bytes.splitOn Ascii.dot names := Bytes.splitOn_append _ (utf8 "this") names
    rw [heq, hpieces] at hsplit
    exact hfirst (List.cons.inj hsplit).1.symm
  have hshort : Bytes.after? (utf8 "./") (b :: more) = none := by
    refine Option.eq_none_iff_forall_ne_some.2 fun names hnames => ?_
    exact hdot (List.cons.inj (Bytes.after?_eq_some_iff.1 hnames)).1
  rw [readLocal, if_neg (not_or.2 ⟨hthis, hpoint⟩), if_neg hsign, if_neg hgreater]
  simp only [hlong, hshort, Option.or_none, Option.getD_none, hread]
  rfl

/-- A preferred ending is read back. -/
theorem readLocal_of_preferred
    {e : Ending}
    (hallowed : e.Allowed 0)
    (hlocal : e ≠ .outwards)
    (hpreferred : e.Preferred) :
    readLocal e.text = .ok e.target := by
  cases e with
  | nothing =>
      exact absurd hallowed (Nat.not_succ_le_zero 0)
  | outwards =>
      exact absurd rfl hlocal
  | this | dot =>
      rfl
  | metadata name tail =>
      change readSegments (Bytes.join (utf8 ".") (name :: tail)) _ >>= _ = _
      rw [readSegments_segments hallowed]
      rfl
  | dotted sign first rest =>
      obtain ⟨hsign, hsegments⟩ := hallowed
      have hread := readSegments_segments hsegments
      simp only [List.mem_cons, List.not_mem_nil, or_false] at hsign
      rcases hsign with rfl | rfl | rfl
      · exact readLocal_of_unsigned hsegments hpreferred
      · have hlong : ∀ names, readLocal (utf8 "this." ++ names) =
            .dotted <$> readSegments names (utf8 "this." ++ names) := fun _ => rfl
        exact (hlong _).trans (by rw [hread]; rfl)
      · have hshort : ∀ names, readLocal (utf8 "./" ++ names) =
            .dotted <$> readSegments names (utf8 "./" ++ names) := fun _ => rfl
        exact (hshort _).trans (by rw [hread]; rfl)

/-- Whatever is read without climbing has a derivation. -/
theorem exists_of_readLocal
    {t : Bytes} {p : PathExpr}
    (h : readLocal t = .ok p) :
    ∃ e : Ending, (∀ n, e.Allowed n) ∧ e.text = t := by
  rcases readLocal_cases h with ⟨-, rfl | rfl⟩ | ⟨s, name, tail, rfl, -, hread⟩ |
    ⟨sign, s, segments, rfl, hsign, -, hread⟩
  · exact ⟨.this, fun _ => trivial, rfl⟩
  · exact ⟨.dot, fun _ => trivial, rfl⟩
  · obtain ⟨-, hsegments, rfl⟩ := readSegments_eq_ok_iff.1 hread
    exact ⟨.metadata name tail, fun _ => hsegments, rfl⟩
  · obtain ⟨hne, hsegments, rfl⟩ := readSegments_eq_ok_iff.1 hread
    obtain ⟨first, rest, rfl⟩ := List.exists_cons_of_ne_nil hne
    exact ⟨.dotted sign first rest, fun _ => ⟨hsign, hsegments⟩, rfl⟩

/-- An ending whose names begin with `this` has the text of one in which `this` is the context. -/
theorem Ending.exists_preferred
    {n : Nat} {e : Ending}
    (h : e.Allowed n) :
    ∃ e' : Ending, e'.Allowed n ∧ e'.Preferred ∧ e'.text = e.text := by
  by_cases hpreferred : e.Preferred
  · exact ⟨e, h, hpreferred, rfl⟩
  · cases e with
    | nothing | outwards | this | dot | metadata =>
        exact absurd trivial hpreferred
    | dotted sign first rest =>
        cases sign with
        | cons b sign =>
            exact absurd trivial hpreferred
        | nil =>
            obtain rfl : first = utf8 "this" := Classical.not_not.1 hpreferred
            obtain ⟨-, hsegments⟩ := h
            cases rest with
            | nil =>
                exact ⟨.this, trivial, trivial, rfl⟩
            | cons next rest =>
                have hnext := fun s hs => hsegments s (List.mem_cons_of_mem _ hs)
                exact ⟨.dotted (utf8 "this.") next rest, ⟨by decide, hnext⟩, trivial, rfl⟩

/-! ## Steps outwards -/

/-- A text climbs in front of what does not climb, or up to its end. -/
theorem climb_cases
    (t : Bytes) :
    (∃ n rest, t = ascent n ++ rest ∧ climb rest = (0, rest)) ∨ ∃ n, t = ascent n ++ utf8 ".." := by
  induction hlength : t.length using Nat.strongRecOn generalizing t with
  | ind length ih =>
      by_cases hlast : t = utf8 ".."
      · exact .inr ⟨0, hlast⟩
      · by_cases hstep : ∃ rest, t = Ascii.dot :: Ascii.dot :: Ascii.slash :: rest
        · obtain ⟨rest, rfl⟩ := hstep
          have hshorter : rest.length < length := by
            simp only [List.length_cons] at hlength
            omega
          rcases ih rest.length hshorter rest rfl with ⟨n, behind, hrest, hclimb⟩ | ⟨n, hrest⟩
          · exact .inl ⟨n + 1, behind, by rw [ascent_succ, hrest]; rfl, hclimb⟩
          · exact .inr ⟨n + 1, by rw [ascent_succ, hrest]; rfl⟩
        · refine .inl ⟨0, t, rfl, ?_⟩
          rw [climb]
          · exact hlast
          · exact fun rest heq => hstep ⟨rest, heq⟩

theorem climb_ascent_outwards
    (n : Nat) :
    climb (ascent n ++ utf8 "..") = (n + 1, []) := by
  induction n with
  | zero =>
      rfl
  | succ n ih =>
      rw [ascent_succ, List.cons_append, List.cons_append, List.cons_append, climb_outwards, ih]

/-- No other ending climbs. -/
theorem climb_text
    {n : Nat} {e : Ending}
    (hallowed : e.Allowed n)
    (hlocal : e ≠ .outwards) :
    climb e.text = (0, e.text) := by
  cases e with
  | outwards =>
      exact absurd rfl hlocal
  | nothing | this | dot | metadata =>
      rfl
  | dotted sign first rest =>
      obtain ⟨hsign, hsegments⟩ := hallowed
      simp only [List.mem_cons, List.not_mem_nil, or_false] at hsign
      rcases hsign with rfl | rfl | rfl
      · obtain ⟨b, more, hcons, hdot, -, -⟩ := exists_cons_of_segments hsegments
        change climb (Bytes.join _ _) = (0, Bytes.join _ _)
        rw [hcons, climb]
        · exact fun heq => hdot (List.cons.inj heq).1
        · exact fun rest heq => hdot (List.cons.inj heq).1
      · rfl
      · rfl

/-! ## Paths -/

theorem read_of_climb_zero
    {t : Bytes}
    (h : climb t = (0, t)) :
    read t = readLocal t := by
  rw [read, h]
  rfl

theorem read_of_climb_succ
    {t rest : Bytes} {n : Nat}
    (h : climb t = (n + 1, rest))
    (hrest : rest ≠ []) :
    read t = .parent (n + 1) <$> readLocal rest := by
  obtain ⟨b, more, rfl⟩ := List.exists_cons_of_ne_nil hrest
  rw [read, h]
  rfl

theorem Ending.text_ne_nil
    {n : Nat} {e : Ending}
    (hallowed : e.Allowed n)
    (h : e ≠ .nothing) :
    e.text ≠ [] := by
  cases e with
  | nothing =>
      exact absurd rfl h
  | outwards | this | dot | metadata =>
      exact List.cons_ne_nil _ _
  | dotted sign first rest =>
      obtain ⟨b, more, hcons, -⟩ := exists_cons_of_segments hallowed.2
      refine List.append_ne_nil_of_right_ne_nil sign ?_
      rw [hcons]
      exact List.cons_ne_nil b more

/-- A text with a preferred derivation is read as the derivation means. -/
theorem read_of_preferred
    {n : Nat} {e : Ending}
    (hallowed : e.Allowed n)
    (hpreferred : e.Preferred) :
    read (ascent n ++ e.text) = .ok (e.meaning n) := by
  by_cases hlocal : e = .outwards
  · subst hlocal
    change read (ascent n ++ utf8 "..") = _
    rw [read, climb_ascent_outwards]
    rfl
  · have hclimb := climb_ascent (climb_text hallowed hlocal) n
    have hsteps : e.steps = 0 := by
      cases e with
      | outwards =>
          exact absurd rfl hlocal
      | _ =>
          rfl
    cases n with
    | zero =>
        have hread := readLocal_of_preferred hallowed hlocal hpreferred
        rw [Ending.meaning, hsteps, if_pos rfl, ← hread]
        exact read_of_climb_zero hclimb
    | succ n =>
        rw [Ending.meaning, hsteps, if_neg (Nat.succ_ne_zero n)]
        by_cases hnothing : e = .nothing
        · subst hnothing
          rw [read, hclimb]
          rfl
        · have hinner : e.Allowed 0 := by
            cases e with
            | nothing =>
                exact absurd rfl hnothing
            | _ =>
                exact hallowed
          rw [read_of_climb_succ hclimb (Ending.text_ne_nil hallowed hnothing),
            readLocal_of_preferred hinner hlocal hpreferred]
          rfl

/-- Whatever is read has a derivation. -/
theorem exists_of_read
    {t : Bytes} {p : PathExpr}
    (h : read t = .ok p) :
    ∃ n, ∃ e : Ending, e.Allowed n ∧ t = ascent n ++ e.text := by
  rcases climb_cases t with ⟨n, rest, rfl, hclimb⟩ | ⟨n, rfl⟩
  · have hclimbs := climb_ascent hclimb n
    cases n with
    | zero =>
        have hread := (read_of_climb_zero hclimbs).symm.trans h
        obtain ⟨e, hallowed, rfl⟩ := exists_of_readLocal hread
        exact ⟨0, e, hallowed 0, rfl⟩
    | succ n =>
        by_cases hrest : rest = []
        · subst hrest
          exact ⟨n + 1, .nothing, Nat.le_add_left 1 n, rfl⟩
        · rw [read_of_climb_succ hclimbs hrest] at h
          obtain ⟨tail, hread, -⟩ := map_eq_ok_iff.1 h
          obtain ⟨e, hallowed, rfl⟩ := exists_of_readLocal hread
          exact ⟨n + 1, e, hallowed (n + 1), rfl⟩
  · exact ⟨n, .outwards, trivial, rfl⟩

/-- The preferred derivations of a text say what it is read as. -/
theorem read_eq_ok_iff
    {t : Bytes} {p : PathExpr} :
    read t = .ok p ↔
      ∃ n, ∃ e : Ending, e.Allowed n ∧ e.Preferred ∧ t = ascent n ++ e.text ∧ p = e.meaning n := by
  constructor
  · intro h
    obtain ⟨n, e, hallowed, rfl⟩ := exists_of_read h
    obtain ⟨e', hallowed', hpreferred, htext⟩ := Ending.exists_preferred hallowed
    rw [← htext, read_of_preferred hallowed' hpreferred] at h
    exact ⟨n, e', hallowed', hpreferred, by rw [htext], (Except.ok.inj h).symm⟩
  · rintro ⟨n, e, hallowed, hpreferred, rfl, rfl⟩
    exact read_of_preferred hallowed hpreferred

/-- No ending leads outwards by itself. -/
theorem Ending.target_ne_parent
    (e : Ending) (n : Nat) (tail : PathExpr) :
    e.target ≠ .parent n tail := by
  cases e <;> exact PathExpr.noConfusion

/-- In an expression, a text that is no path is a fault of grammar. -/
theorem readPath_fails_iff
    {t : Bytes} :
    (∃ cause, Mark.readPath t = .error cause ∧ cause.kind = .grammar) ↔ ¬ ∃ p, read t = .ok p := by
  rw [Mark.readPath, Argument.readPath]
  cases read t with
  | ok p =>
      constructor
      · rintro ⟨cause, hcause, -⟩
        cases hcause
      · intro hnone
        exact absurd ⟨p, rfl⟩ hnone
  | error e =>
      constructor
      · rintro - ⟨p, hp⟩
        cases hp
      · intro _
        exact ⟨.argument (.path e), rfl, rfl⟩

/-- Paths are read by the grammar.  A text is read if and only if it has a derivation, and then as
its preferred derivation means, with the steps outwards counted in one place; any other text is a
fault of grammar. -/
theorem read_accepts_exactly_grammar
    (t : Bytes) :
    ((∃ p, read t = .ok p) ↔ ∃ n, ∃ e : Ending, e.Allowed n ∧ t = ascent n ++ e.text) ∧
      (∀ p, read t = .ok p ↔ ∃ n, ∃ e : Ending,
        e.Allowed n ∧ e.Preferred ∧ t = ascent n ++ e.text ∧ p = e.meaning n) ∧
      (∀ n tail, read t = .ok (.parent n tail) → 1 ≤ n ∧ ∀ m inner, tail ≠ .parent m inner) ∧
      ((∃ cause, Mark.readPath t = .error cause ∧ cause.kind = .grammar) ↔
        ¬ ∃ n, ∃ e : Ending, e.Allowed n ∧ t = ascent n ++ e.text) := by
  have haccepts : (∃ p, read t = .ok p) ↔
      ∃ n, ∃ e : Ending, e.Allowed n ∧ t = ascent n ++ e.text := by
    constructor
    · rintro ⟨p, hp⟩
      exact exists_of_read hp
    · rintro ⟨n, e, hallowed, rfl⟩
      obtain ⟨e', hallowed', hpreferred, htext⟩ := Ending.exists_preferred hallowed
      exact ⟨e'.meaning n, htext ▸ read_of_preferred hallowed' hpreferred⟩
  refine ⟨haccepts, fun p => read_eq_ok_iff, fun n tail h => ?_, ?_⟩
  · obtain ⟨k, e, -, -, -, hmeaning⟩ := read_eq_ok_iff.1 h
    rw [Ending.meaning] at hmeaning
    split at hmeaning
    · exact absurd hmeaning.symm (e.target_ne_parent n tail)
    · next hsteps =>
        cases hmeaning
        exact ⟨Nat.one_le_iff_ne_zero.2 hsteps, e.target_ne_parent⟩
  · rw [← haccepts]
    exact readPath_fails_iff

/-- A name `this` behind the sign `this.` stays a name, and a step outwards behind the sign `./` is
no path. -/
theorem read_accepts_samples :
    read (utf8 "../../this.this.name") =
        .ok (.parent 2 (.dotted [utf8 "this", utf8 "name"])) ∧
      (∃ cause, Mark.readPath (utf8 "./..") = .error cause ∧ cause.kind = .grammar) ∧
      ¬ ∃ n, ∃ e : Ending, e.Allowed n ∧ utf8 "./.." = ascent n ++ e.text := by
  have hsegments : ∀ s ∈ [utf8 "this", utf8 "name"], Segment s := by
    intro s hs
    exact segment_iff.2 ((by decide : ∀ s ∈ [utf8 "this", utf8 "name"],
      isSegment s = true ∧ Ascii.dot ∉ s) s hs)
  have hpath := ((read_accepts_exactly_grammar (utf8 "../../this.this.name")).2.1 _).2
    ⟨2, .dotted (utf8 "this.") (utf8 "this") [utf8 "name"], ⟨by decide, hsegments⟩, trivial, rfl,
      rfl⟩
  have hfault : ∃ cause, Mark.readPath (utf8 "./..") = .error cause ∧ cause.kind = .grammar :=
    ⟨_, rfl, rfl⟩
  exact ⟨hpath, hfault, (read_accepts_exactly_grammar (utf8 "./..")).2.2.2.1 hfault⟩

end PathExpr
end Stencil
