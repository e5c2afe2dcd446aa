import Stencil.Proofs.Compile.Translation
import Stencil.Scope

/-!
# What a written path means

A written path has a meaning of its own in a chain of contexts, part by part: the value in view, the
data of the outermost context or the nearest metadata variable of a name, read property by property,
in the context that is so many steps further out, and trusted or not.  The path that a program holds
has all of this in one record.

Results: `PathExpr.lookup_toPath_eq_meaning`, and with it that the steps outwards in that record are
those that compiling counts.
-/

namespace Stencil

/-! ## Values that are not there -/

namespace Value

/-- A value read property by property. -/
def getAll (keys : List Bytes) (v : Value) : Value := keys.foldl (fun v key => v.get key) v

theorem getAll_null
    (keys : List Bytes) :
    getAll keys .null = .null := by
  induction keys with
  | nil =>
      rfl
  | cons key rest ih =>
      exact ih

/-- Trust is given once. -/
theorem trust_trust
    (v : Value) :
    v.trust.trust = v.trust := by
  cases v <;> rfl

end Value

/-! ## Meaning -/

namespace Scope

/-- The data of the outermost context. -/
def rootData (s : Scope) : Value := (s.getLast?.map Frame.data).getD .null

/-- The metadata variable of a name that the nearest context has. -/
def nearest (name : Bytes) (s : Scope) : Value :=
  (s.findSome? fun f => f.metadata.lookup name).getD .null

/-- The contexts from the one that is `n` steps further out on, when there is one. -/
def ancestor? (n : Nat) (s : Scope) : Option Scope := if n < s.length then some (s.drop n) else none

theorem data_outermost
    (s : Scope) :
    s.outermost.data = s.rootData := by
  unfold outermost rootData
  cases s.getLast? <;> rfl

theorem metadata_eq_nearest
    (name : Bytes) (s : Scope) :
    s.metadata name = s.nearest name := by
  induction s with
  | nil =>
      rfl
  | cons f rest ih =>
      simp only [metadata, nearest, List.findSome?_cons]
      cases f.metadata.lookup name with
      | none =>
          exact ih
      | some v =>
          rfl

end Scope

/-- What a written path means in some contexts. -/
def PathExpr.meaning : PathExpr → Scope → Value
  | this, s => s.data
  | metadata name tail, s =>
    (if name = utf8 "root" then s.rootData else s.nearest name).getAll tail
  | dotted segments, s => s.data.getAll segments
  | parent n tail, s =>
    match s.ancestor? n with
    | some outer => tail.meaning outer
    | none => .null
  | raw inner, s => (inner.meaning s).trust

/-! ## Looking up in one record -/

namespace Scope

theorem start_nil
    (p : Path) :
    start p [] = .null := by
  unfold start
  split
  · rfl
  · split <;> rfl

/-- Without a context there is nothing to be found. -/
theorem lookup_nil
    (p : Path) :
    lookup p [] = .null := by
  have hread : (start p []).getAll p.segments = .null := by
    rw [start_nil, Value.getAll_null]
  have hlookup : lookup p [] = if p.trusted then Value.trust .null else .null := by
    rw [← hread]
    simp only [lookup, List.drop_nil, Value.getAll]
  rw [hlookup]
  split <;> rfl

theorem lookup_trust
    (p : Path) (s : Scope) :
    s.lookup p.trust = (s.lookup p).trust := by
  have htrust : s.lookup p.trust =
      ((start p (s.drop p.hops.toNat)).getAll p.segments).trust := rfl
  rw [htrust, lookup]
  by_cases hp : p.trusted = true
  · simp only [hp, if_true, Value.trust_trust, Value.getAll]
  · simp only [hp, Value.getAll]
    rfl

/-- Steps outwards are taken before all else. -/
theorem lookup_up
    {p : Path}
    (hp : 0 ≤ p.hops)
    (n : Nat) (s : Scope) :
    s.lookup (p.up n) = lookup p (s.drop n) := by
  have hhops : (n + p.hops).toNat = n + p.hops.toNat := by omega
  simp only [lookup, start, Path.up, hhops, List.drop_drop]

end Scope

namespace PathExpr

/-- A path in a program leads to what the written path means, in any contexts. -/
theorem lookup_toPath
    (p : PathExpr) (s : Scope) :
    s.lookup p.toPath = p.meaning s := by
  -- Only steps outwards change the contexts, so these are general.
  induction p generalizing s with
  | this =>
      rfl
  | metadata name tail =>
      simp only [toPath, meaning, Scope.lookup, Scope.start, Int.toNat_zero, List.drop_zero,
        Scope.data_outermost, Scope.metadata_eq_nearest]
      rfl
  | dotted segments =>
      rfl
  | parent n tail ih =>
      have hhops : 0 ≤ tail.toPath.hops := by
        rw [toPath_hops]
        omega
      have hup : s.lookup (parent n tail).toPath = Scope.lookup tail.toPath (s.drop n) :=
        Scope.lookup_up hhops n s
      rw [hup, meaning, Scope.ancestor?]
      by_cases hn : n < s.length
      · rw [if_pos hn]
        exact ih (s.drop n)
      · rw [if_neg hn, List.drop_eq_nil_of_le (Nat.le_of_not_lt hn)]
        exact Scope.lookup_nil tail.toPath
  | raw inner ih =>
      rw [meaning, ← ih s]
      exact Scope.lookup_trust inner.toPath s

/-- The path in a program that a written path stands for leads to what the written path means, in
any contexts, and the steps outwards in it are those that compiling compares with the blocks around
the path. -/
theorem lookup_toPath_eq_meaning
    (p : PathExpr) :
    (∀ s : Scope, s.lookup p.toPath = p.meaning s) ∧
      p.toPath.hops = p.hops ∧
      ∀ depth : Nat, Compile.checkPath depth p =
        if p.toPath.hops ≤ depth then .ok p.toPath else .error (.climbsTooFar p.hops depth) := by
  refine ⟨lookup_toPath p, toPath_hops p, fun depth => ?_⟩
  rw [toPath_hops]
  simp only [Compile.checkPath, Int.ofNat_le]

/-- Inside of the only row of a page: the row itself, a name that it has not, the name one context
further out and from the outermost one, the metadata of the row, and beyond the outermost context. -/
example :
    let page := Value.record [(utf8 "title", .text (utf8 "t")), (utf8 "rows", .list [.bool true])] []
    let s := (Scope.root page).push (.bool true) (iterationMetadata 0 1)
    let title := dotted [utf8 "title"]
    s.lookup this.toPath = .bool true ∧ s.lookup title.toPath = .null ∧
      s.lookup (parent 1 title).toPath = .text (utf8 "t") ∧
      s.lookup (raw (metadata (utf8 "root") [utf8 "title"])).toPath = .html (utf8 "t") ∧
      s.lookup (metadata (utf8 "last") []).toPath = .bool true ∧
      s.lookup (parent 2 title).toPath = .null :=
  ⟨rfl, rfl, rfl, rfl, rfl, rfl⟩

end PathExpr
end Stencil
