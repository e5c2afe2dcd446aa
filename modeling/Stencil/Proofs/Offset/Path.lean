import Stencil.Path
import Stencil.Proofs.Chunk
import Stencil.Proofs.Offset.Access

/-!
# Paths by offsets

The reader of paths written with offsets.  The first segment of a path is taken without a test
before it, which is in range since a text has at least one segment.

Result: `readPath_eq`.
-/

namespace Stencil
namespace Offset

/-- How often a path climbs, with what was counted before, and the text behind that. -/
def climb (hops : Nat) (text : Bytes) : Option (Nat × Bytes) :=
  if text = utf8 ".." then some (hops + 1, [])
  else if Bytes.startsWith (utf8 "../") text then
    match _h : from? text 3 with
    | none => none
    | some rest => climb (hops + 1) rest
  else some (hops, text)
termination_by text.length
decreasing_by
  have hlength := length_of_from? _h
  omega

/-- What follows the sign of the current context at the front of a path. -/
def localRest? (text : Bytes) : Option Bytes :=
  if Bytes.startsWith (utf8 "this.") text then from? text 5
  else if Bytes.startsWith (utf8 "./") text then from? text 2
  else some text

/-- Reads a path that does not climb. -/
def readLocal (text : Bytes) : Checked PathError PathExpr :=
  if text = [] then .of (.error .empty)
  else if text = utf8 "this" ∨ text = utf8 "." then pure .this
  else do
    let b ← at? text 0
    if b = Ascii.atSign then
      let segments ← Checked.of (PathExpr.readSegments (← from? text 1) text)
      return .metadata (← at? segments 0) (← from? segments 1)
    else if b = Ascii.greater then .of (.error (.partialReference text))
    else
      .dotted <$> Checked.of (PathExpr.readSegments (← localRest? text) text)

/-- Reads a path. -/
def readPath (text : Bytes) : Checked PathError PathExpr := do
  match ← climb 0 text with
  | (0, _) => readLocal text
  | (hops, []) => return .parent hops .this
  | (hops, rest) => .parent hops <$> readLocal rest

theorem climb_eq
    (hops : Nat) (text : Bytes) :
    climb hops text = some (hops + (PathExpr.climb text).1, (PathExpr.climb text).2) := by
  fun_induction PathExpr.climb text generalizing hops with
  | case1 =>
      rw [climb]
      rfl
  | case2 rest n more hclimb ih =>
      have hne : Ascii.dot :: Ascii.dot :: Ascii.slash :: rest ≠ utf8 ".." := by
        intro h
        have hlength := congrArg List.length h
        have htwo : (utf8 "..").length = 2 := rfl
        simp only [List.length_cons, htwo] at hlength
        omega
      have hstart : Bytes.startsWith (utf8 "../") (Ascii.dot :: Ascii.dot :: Ascii.slash :: rest) =
          true := rfl
      have hrest : from? (Ascii.dot :: Ascii.dot :: Ascii.slash :: rest) 3 = some rest :=
        from?_append [Ascii.dot, Ascii.dot, Ascii.slash] rest rfl
      change climb hops (Ascii.dot :: Ascii.dot :: Ascii.slash :: rest) = _
      rw [climb, if_neg hne, if_pos hstart]
      split
      · next h =>
          cases hrest.symm.trans h
      · next more' h =>
          obtain rfl := Option.some.inj (hrest.symm.trans h)
          rw [ih, hclimb, Nat.add_assoc, Nat.add_comm 1]
  | case3 text htwo hthree =>
      have hne : text ≠ utf8 ".." := htwo
      have hstart : ¬ Bytes.startsWith (utf8 "../") text = true := by
        intro h
        obtain ⟨rest, rfl⟩ := Bytes.startsWith_iff.1 h
        exact hthree rest rfl
      rw [climb, if_neg hne, if_neg hstart, Nat.add_zero]

theorem readSegments_ne_nil
    {s text : Bytes} {segments : List Bytes}
    (h : PathExpr.readSegments s text = .ok segments) :
    segments ≠ [] := by
  unfold PathExpr.readSegments at h
  simp only at h
  split at h
  · obtain rfl := Except.ok.inj h
    exact Bytes.splitOn_ne_nil _ _
  · cases h

theorem from?_of_after?
    {p s rest : Bytes} {lo : Int}
    (h : Bytes.after? p s = some rest)
    (hlo : lo = p.length) :
    from? s lo = some rest := by
  rw [Bytes.after?_eq_some_iff.1 h]
  exact from?_append p rest hlo

theorem localRest?_eq
    (text : Bytes) :
    localRest? text =
      some (((Bytes.after? (utf8 "this.") text).or (Bytes.after? (utf8 "./") text)).getD text) := by
  unfold localRest? Bytes.startsWith
  cases hthis : Bytes.after? (utf8 "this.") text with
  | some rest =>
      exact from?_of_after? hthis rfl
  | none =>
      cases hdot : Bytes.after? (utf8 "./") text with
      | some rest =>
          exact from?_of_after? hdot rfl
      | none =>
          rfl

theorem readLocal_eq
    (text : Bytes) :
    readLocal text = .of (PathExpr.readLocal text) := by
  cases text with
  | nil =>
      rfl
  | cons b rest =>
      unfold readLocal PathExpr.readLocal
      rw [if_neg (List.cons_ne_nil b rest), at?_cons_zero, from?_cons_one, localRest?_eq]
      simp only [Checked.lift_some, Checked.of_ok_bind]
      split
      · rfl
      · split
        · refine Checked.of_bind fun segments hsegments => ?_
          cases segments with
          | nil =>
              exact absurd rfl (readSegments_ne_nil hsegments)
          | cons name tail =>
              rw [at?_cons_zero, from?_cons_one]
              rfl
        · split
          · rfl
          · exact Checked.of_map _ _

theorem readPath_eq
    (text : Bytes) :
    readPath text = .of (PathExpr.read text) := by
  unfold readPath PathExpr.read
  rw [climb_eq, Nat.zero_add, Checked.lift_some, Checked.of_ok_bind]
  generalize PathExpr.climb text = climbed
  obtain ⟨hops, rest⟩ := climbed
  cases hops with
  | zero =>
      exact readLocal_eq text
  | succ n =>
      cases rest with
      | nil =>
          rfl
      | cons b rest =>
          simp only [readLocal_eq, Checked.of_map]

end Offset
end Stencil
