import Stencil.Fragment
import Stencil.Proofs.File.Name
import Stencil.Proofs.Text.Unspaced

/-!
# Paths read back

A path is written out as one `../` for every context that it climbs, and then `.` for the context
itself, `./` and property names, or `@` and the name of a metadata variable with property names
behind it, all names with dots in between.

Result: `PathExpr.read_of_spelled`.  The text of a path holds no byte that would end it in a list of
arguments, `PathExpr.isName_of_spelled`, and no white space, `PathExpr.unspaced_of_spelled`.
-/

namespace Stencil

namespace Bytes

/-- The pieces of a text that was put together from pieces without the separator. -/
theorem splitOn_join
    {sep : UInt8} {first : Bytes} {rest : List Bytes}
    (h : ∀ s ∈ first :: rest, sep ∉ s) :
    splitOn sep (join [sep] (first :: rest)) = first :: rest := by
  induction rest generalizing first with
  | nil =>
      exact splitOn_of_notMem (h first List.mem_cons_self)
  | cons s rest ih =>
      have htail := ih fun t ht => h t (List.mem_cons_of_mem first ht)
      rw [join, List.append_assoc, List.singleton_append, splitOn_append, htail,
        splitOn_of_notMem (h first List.mem_cons_self), List.singleton_append]

theorem mem_join
    {sep b : UInt8} {ss : List Bytes}
    (h : b ∈ join [sep] ss) :
    b = sep ∨ ∃ s ∈ ss, b ∈ s := by
  fun_induction join [sep] ss with
  | case1 =>
      cases h
  | case2 s =>
      exact .inr ⟨s, List.mem_singleton_self s, h⟩
  | case3 s t rest ih =>
      rw [List.mem_append, List.mem_append, List.mem_singleton] at h
      rcases h with (hs | rfl) | hrest
      · exact .inr ⟨s, List.mem_cons_self, hs⟩
      · exact .inl rfl
      · rcases ih hrest with rfl | ⟨u, hu, hb⟩
        · exact .inl rfl
        · exact .inr ⟨u, List.mem_cons_of_mem s hu, hb⟩

end Bytes

theorem Mark.isName_iff
    {s : Bytes} :
    isName s = true ↔ s ≠ [] ∧ ∀ b ∈ s, b ∉ reserved := by
  simp [isName]

/-- A text is a name if its bytes are of a kind that no reserved byte is of. -/
theorem Mark.isName_of_kind
    {s : Bytes} {kind : UInt8 → Bool}
    (hs : s ≠ [])
    (hkind : ∀ b ∈ s, kind b = true)
    (hreserved : reserved.all (fun b => !kind b) = true) :
    isName s = true := by
  refine isName_iff.2 ⟨hs, fun b hb hmem => ?_⟩
  have hother := List.all_eq_true.1 hreserved b hmem
  rw [hkind b hb] at hother
  cases hother

namespace PathExpr

/-- A segment that can be written between dots: one without dots and white space. -/
structure Plain (s : Bytes) : Prop where
  isSegment : isSegment s = true
  noDot : Ascii.dot ∉ s
  unspaced : Text.Unspaced s

/-- The paths that do not climb, with their texts. -/
inductive SpelledLocal : PathExpr → Bytes → Prop
  | this : SpelledLocal .this [Ascii.dot]
  | dotted {first : Bytes} {rest : List Bytes} (plain : ∀ s ∈ first :: rest, Plain s) :
      SpelledLocal (.dotted (first :: rest))
        (Ascii.dot :: Ascii.slash :: Bytes.join [Ascii.dot] (first :: rest))
  | metadata {name : Bytes} {tail : List Bytes} (plain : ∀ s ∈ name :: tail, Plain s) :
      SpelledLocal (.metadata name tail)
        (Ascii.atSign :: Bytes.join [Ascii.dot] (name :: tail))

/-- The steps outwards at the front of a path. -/
def ascent (n : Nat) : Bytes := (List.replicate n (utf8 "../")).flatten

/-- The paths with their texts. -/
inductive Spelled : PathExpr → Bytes → Prop
  | inside {p : PathExpr} {t : Bytes} (spelled : SpelledLocal p t) : Spelled p t
  | outwards {p : PathExpr} {t : Bytes} (n : Nat) (spelled : SpelledLocal p t) :
      Spelled (.parent (n + 1) p) (ascent (n + 1) ++ t)

theorem ascent_succ
    (n : Nat) :
    ascent (n + 1) = Ascii.dot :: Ascii.dot :: Ascii.slash :: ascent n :=
  rfl

/-! ## Reading -/

theorem readSegments_join
    {first : Bytes} {rest : List Bytes}
    (h : ∀ s ∈ first :: rest, isSegment s = true ∧ Ascii.dot ∉ s)
    (text : Bytes) :
    readSegments (Bytes.join [Ascii.dot] (first :: rest)) text = .ok (first :: rest) := by
  have hall : (first :: rest).all isSegment = true := List.all_eq_true.2 fun s hs => (h s hs).1
  rw [readSegments, Bytes.splitOn_join fun s hs => (h s hs).2]
  exact if_pos hall

theorem readLocal_of_spelled
    {p : PathExpr} {t : Bytes}
    (h : SpelledLocal p t) :
    readLocal t = .ok p := by
  cases h with
  | this =>
      rfl
  | dotted plain =>
      -- None of the other forms begins with a dot and a slash.
      have hread : ∀ names, readLocal (Ascii.dot :: Ascii.slash :: names) =
          .dotted <$> readSegments names (Ascii.dot :: Ascii.slash :: names) := fun _ => rfl
      rw [hread, readSegments_join fun s hs => ⟨(plain s hs).isSegment, (plain s hs).noDot⟩]
      rfl
  | metadata plain =>
      change readSegments _ _ >>= _ = _
      rw [readSegments_join fun s hs => ⟨(plain s hs).isSegment, (plain s hs).noDot⟩]
      rfl

theorem climb_of_spelled
    {p : PathExpr} {t : Bytes}
    (h : SpelledLocal p t) :
    climb t = (0, t) := by
  cases h <;> rfl

theorem climb_outwards
    (s : Bytes) :
    climb (Ascii.dot :: Ascii.dot :: Ascii.slash :: s) = ((climb s).1 + 1, (climb s).2) :=
  rfl

theorem climb_ascent
    {t : Bytes}
    (h : climb t = (0, t))
    (n : Nat) :
    climb (ascent n ++ t) = (n, t) := by
  induction n with
  | zero =>
      exact h
  | succ n ih =>
      rw [ascent_succ, List.cons_append, List.cons_append, List.cons_append, climb_outwards, ih]

/-- A path reads back from its text. -/
theorem read_of_spelled
    {p : PathExpr} {t : Bytes}
    (h : Spelled p t) :
    read t = .ok p := by
  cases h with
  | inside spelled =>
      rw [read, climb_of_spelled spelled]
      exact readLocal_of_spelled spelled
  | @outwards p t n spelled =>
      have hlocal := readLocal_of_spelled spelled
      rw [read, climb_ascent (climb_of_spelled spelled)]
      cases spelled <;> exact congrArg (PathExpr.parent (n + 1) <$> ·) hlocal

/-! ## The bytes of a path -/

theorem reserved_eq : reserved = Mark.reserved ++ [Ascii.atSign, Ascii.slash] := by decide

theorem Plain.not_reserved
    {s : Bytes}
    (h : Plain s)
    {b : UInt8}
    (hb : b ∈ s) :
    b ∉ Mark.reserved := by
  have hsegment := h.isSegment
  simp only [PathExpr.isSegment, Bool.and_eq_true, List.all_eq_true, Bool.not_eq_true',
    List.contains_eq_mem, decide_eq_false_iff_not, reserved_eq] at hsegment
  exact fun hreserved => hsegment.2 b hb (List.mem_append_left _ hreserved)

theorem not_reserved_join
    {ss : List Bytes}
    (plain : ∀ s ∈ ss, Plain s)
    {b : UInt8}
    (hb : b ∈ Bytes.join [Ascii.dot] ss) :
    b ∉ Mark.reserved := by
  rcases Bytes.mem_join hb with rfl | ⟨s, hs, hbs⟩
  · decide
  · exact (plain s hs).not_reserved hbs

theorem SpelledLocal.not_reserved
    {p : PathExpr} {t : Bytes}
    (h : SpelledLocal p t)
    {b : UInt8}
    (hb : b ∈ t) :
    b ∉ Mark.reserved := by
  cases h with
  | this =>
      obtain rfl := List.mem_singleton.1 hb
      decide
  | dotted plain =>
      rw [List.mem_cons, List.mem_cons] at hb
      rcases hb with rfl | rfl | hnames
      · decide
      · decide
      · exact not_reserved_join plain hnames
  | metadata plain =>
      rw [List.mem_cons] at hb
      rcases hb with rfl | hnames
      · decide
      · exact not_reserved_join plain hnames

theorem not_reserved_ascent
    {n : Nat} {b : UInt8}
    (hb : b ∈ ascent n) :
    b ∉ Mark.reserved := by
  induction n with
  | zero =>
      cases hb
  | succ n ih =>
      rw [ascent_succ, List.mem_cons, List.mem_cons, List.mem_cons] at hb
      rcases hb with rfl | rfl | rfl | hrest
      · decide
      · decide
      · decide
      · exact ih hrest

theorem SpelledLocal.ne_nil
    {p : PathExpr} {t : Bytes}
    (h : SpelledLocal p t) :
    t ≠ [] := by
  cases h <;> exact List.cons_ne_nil _ _

/-- The text of a path could be the name of a helper as well. -/
theorem isName_of_spelled
    {p : PathExpr} {t : Bytes}
    (h : Spelled p t) :
    Mark.isName t = true := by
  rw [Mark.isName_iff]
  cases h with
  | inside spelled =>
      exact ⟨spelled.ne_nil, fun _ hb => spelled.not_reserved hb⟩
  | outwards n spelled =>
      refine ⟨List.append_ne_nil_of_right_ne_nil _ spelled.ne_nil, fun b hb => ?_⟩
      rcases List.mem_append.1 hb with hfront | hback
      · exact not_reserved_ascent hfront
      · exact spelled.not_reserved hback

theorem unspaced_join
    {first : Bytes} {rest : List Bytes}
    (plain : ∀ s ∈ first :: rest, Plain s) :
    Text.Unspaced (Bytes.join [Ascii.dot] (first :: rest)) := by
  induction rest generalizing first with
  | nil =>
      exact (plain first List.mem_cons_self).unspaced
  | cons s rest ih =>
      have htail := ih fun t ht => plain t (List.mem_cons_of_mem first ht)
      rw [Bytes.join, List.append_assoc, List.singleton_append]
      exact (plain first List.mem_cons_self).unspaced.append_cons htail (by decide) (by decide)

theorem unspaced_local
    {p : PathExpr} {t : Bytes}
    (h : SpelledLocal p t) :
    Text.Unspaced t := by
  cases h with
  | this =>
      exact Text.unspaced_nil.cons (by decide) (by decide)
  | dotted plain =>
      exact ((unspaced_join plain).cons (by decide) (by decide)).cons (by decide) (by decide)
  | metadata plain =>
      exact (unspaced_join plain).cons (by decide) (by decide)

theorem unspaced_of_spelled
    {p : PathExpr} {t : Bytes}
    (h : Spelled p t) :
    Text.Unspaced t := by
  cases h with
  | inside spelled =>
      exact unspaced_local spelled
  | outwards n spelled =>
      have hlocal := unspaced_local spelled
      induction n + 1 with
      | zero =>
          exact hlocal
      | succ n ih =>
          rw [ascent_succ, List.cons_append, List.cons_append, List.cons_append]
          exact ((ih.cons (by decide) (by decide)).cons (by decide) (by decide)).cons
            (by decide) (by decide)

end PathExpr
end Stencil
