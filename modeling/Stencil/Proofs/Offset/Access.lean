import Stencil.Bytes

/-!
# Reading at offsets

The readers of templates are defined by recursion on what is left of a text.  They can also be
written with offsets into the whole text, where every access has to stay inside of it.

Algorithm: an access at an offset gives `none` where the offset is out of range.  A computation of
type `Checked ε α` makes accesses and may report an error of its own; `Checked.of r` is the one that
makes no bad access and ends with the result `r`.

Results: the accesses succeed where the list is taken apart at their offsets, and `Checked.of`
commutes with sequencing, so a reader by offsets is shown equal to one by recursion step by step.
-/

namespace Stencil
namespace Offset

/-! ## Accesses -/

section Access

variable {α : Type}

/-- The entry at an offset. -/
def at? (l : List α) (i : Int) : Option α :=
  if 0 ≤ i then l[i.toNat]? else none

/-- The entries from one offset up to another. -/
def slice? (l : List α) (lo hi : Int) : Option (List α) :=
  if 0 ≤ lo ∧ lo ≤ hi ∧ hi ≤ l.length then some ((l.drop lo.toNat).take (hi - lo).toNat) else none

/-- The entries from an offset on. -/
def from? (l : List α) (lo : Int) : Option (List α) := slice? l lo l.length

theorem at?_append
    (front rest : List α) (a : α) {i : Int}
    (hi : i = front.length) :
    at? (front ++ a :: rest) i = some a := by
  subst hi
  simp [at?]

theorem slice?_of_le
    {l : List α} {lo hi : Nat}
    (hlo : lo ≤ hi)
    (hhi : hi ≤ l.length) :
    slice? l lo hi = some ((l.drop lo).take (hi - lo)) := by
  have hrange : (0 : Int) ≤ lo ∧ (lo : Int) ≤ hi ∧ (hi : Int) ≤ l.length := by
    omega
  have hcount : ((hi : Int) - lo).toNat = hi - lo := by
    omega
  rw [slice?, if_pos hrange, hcount, Int.toNat_natCast]

theorem slice?_append
    (front part rest : List α) {lo hi : Int}
    (hlo : lo = front.length)
    (hhi : hi = front.length + part.length) :
    slice? (front ++ (part ++ rest)) lo hi = some part := by
  have hstop : hi = (front.length + part.length : Nat) := by
    omega
  have hle : front.length + part.length ≤ (front ++ (part ++ rest)).length := by
    simp only [List.length_append]
    omega
  rw [hlo, hstop, slice?_of_le (Nat.le_add_right _ _) hle]
  simp

theorem from?_append
    (front rest : List α) {lo : Int}
    (hlo : lo = front.length) :
    from? (front ++ rest) lo = some rest := by
  have h := slice?_append front rest [] hlo rfl
  simpa only [from?, List.append_nil, List.length_append, Int.natCast_add] using h

theorem at?_cons_zero
    (a : α) (l : List α) :
    at? (a :: l) 0 = some a :=
  at?_append [] l a rfl

theorem from?_cons_one
    (a : α) (l : List α) :
    from? (a :: l) 1 = some l :=
  from?_append [a] l rfl

theorem length_of_from?
    {l rest : List α} {lo : Int}
    (h : from? l lo = some rest) :
    lo + rest.length = l.length := by
  unfold from? slice? at h
  split at h
  · obtain rfl := Option.some.inj h
    simp only [List.length_take, List.length_drop]
    omega
  · cases h

end Access

/-! ## Searching -/

/-- The offset of the first occurrence of a text. -/
def index? (p s : Bytes) : Option Nat := (Bytes.cut? p s).map fun parts => parts.1.length

/-! ## Sequencing -/

/-- A computation that makes accesses and may report an error; `none` is a bad access. -/
structure Checked (ε α : Type) where
  result : Option (Except ε α)

namespace Checked

variable {ε ε' α β : Type}

/-- The computation that makes no bad access and ends with a result. -/
def of (r : Except ε α) : Checked ε α := ⟨some r⟩

/-- One computation after another. -/
def andThen (x : Checked ε α) (f : α → Checked ε β) : Checked ε β :=
  match x.result with
  | none => ⟨none⟩
  | some (.error e) => of (.error e)
  | some (.ok a) => f a

instance : Monad (Checked ε) where
  pure a := of (.ok a)
  bind := andThen

instance : MonadLift Option (Checked ε) where
  monadLift x := ⟨x.map Except.ok⟩

/-- The computation with its error put in another form. -/
def adapt (f : ε → ε') (x : Checked ε α) : Checked ε' α := ⟨x.result.map (Except.mapError f)⟩

instance : LawfulMonad (Checked ε) :=
  LawfulMonad.mk'
    (Checked ε)
    (fun ⟨r⟩ => by rcases r with _ | _ | _ <;> rfl)
    (fun _ _ => rfl)
    (fun ⟨r⟩ _ _ => by rcases r with _ | _ | _ <;> rfl)

theorem lift_some
    (a : α) :
    (liftM (some a) : Checked ε α) = of (.ok a) :=
  rfl

theorem of_ok_bind
    (a : α) (f : α → Checked ε β) :
    of (.ok a) >>= f = f a :=
  rfl

theorem of_bind
    {r : Except ε α} {f : α → Checked ε β} {g : α → Except ε β}
    (h : ∀ a, r = .ok a → f a = of (g a)) :
    of r >>= f = of (r >>= g) := by
  cases r with
  | ok a =>
      exact h a rfl
  | error e =>
      rfl

theorem of_map
    (f : α → β) (r : Except ε α) :
    f <$> of r = of (f <$> r) := by
  cases r <;> rfl

theorem adapt_of
    (f : ε → ε') (r : Except ε α) :
    adapt f (of r) = of (r.mapError f) :=
  rfl

theorem mapM_of
    {f : α → Checked ε β} {g : α → Except ε β} {l : List α}
    (h : ∀ a ∈ l, f a = of (g a)) :
    l.mapM f = of (l.mapM g) := by
  induction l with
  | nil =>
      rfl
  | cons a rest ih =>
      have hrest := ih fun b hb => h b (List.mem_cons_of_mem a hb)
      rw [List.mapM_cons, List.mapM_cons, h a List.mem_cons_self, hrest]
      exact of_bind fun b _ => of_bind fun bs _ => rfl

theorem foldlM_of
    {f : β → α → Checked ε β} {g : β → α → Except ε β} {l : List α}
    (h : ∀ a ∈ l, ∀ b, f b a = of (g b a))
    (b : β) :
    l.foldlM f b = of (l.foldlM g b) := by
  induction l generalizing b with
  | nil =>
      rfl
  | cons a rest ih =>
      rw [List.foldlM_cons, List.foldlM_cons, h a List.mem_cons_self]
      exact of_bind fun c _ => ih (fun d hd => h d (List.mem_cons_of_mem a hd)) c

end Checked
end Offset
end Stencil
