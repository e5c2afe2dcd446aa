import Stencil.Proofs.Path.Grammar
import Stencil.Proofs.Path.Meaning

/-!
# Paths written out and read again

A path that a program holds is written as one `../` for every context that it climbs, and behind
them as a metadata variable, as the names of properties, or as `this` where there are none.  No sign
of the context stands in front of the names.

A text is read with `this` at its front taken for the context.  So the names of a path are read back
as they are unless the first of them is `this`; then that name is lost, and the text denotes the
path of the names behind it.

Algorithm: a path that was read is written in the form of a derivation.  That derivation is the
preferred one exactly if the first name is not `this`, and preferred derivations are read back.

Result: `PathExpr.written_reads_back_iff`.
-/

namespace Stencil

/-! ## Written paths -/

namespace Path

/-- The paths that come from a text: they climb some number of contexts, their names can stand in a
path, and they are not trusted. -/
structure Plain (p : Path) : Prop where
  climbs : ∃ n : Nat, p.hops = n
  names : ∀ s ∈ p.metadata.toList ++ p.segments, PathExpr.Segment s
  untrusted : p.trusted = false

/-- A path of properties of the context that begins with the name `this`. -/
def BeginsWithThis (p : Path) : Prop := p.metadata = none ∧ p.segments.head? = some (utf8 "this")

/-- The derivation in whose form a path is written, behind the steps outwards. -/
def ending (p : Path) : PathExpr.Ending :=
  match p.metadata with
  | some name => .metadata name p.segments
  | none =>
    match p.segments with
    | [] => .this
    | first :: rest => .dotted [] first rest

variable {p : Path}

theorem written_eq
    (h : p.Plain) :
    p.written = PathExpr.ascent p.hops.toNat ++ p.ending.text := by
  obtain ⟨hops, metadata, segments, trusted⟩ := p
  obtain rfl : trusted = false := h.untrusted
  cases metadata with
  | some name =>
      rfl
  | none =>
      cases segments <;> rfl

theorem allowed_ending
    (h : p.Plain)
    (n : Nat) :
    p.ending.Allowed n := by
  obtain ⟨hops, metadata, segments, trusted⟩ := p
  cases metadata with
  | some name =>
      exact h.names
  | none =>
      cases segments with
      | nil =>
          trivial
      | cons first rest =>
          exact ⟨List.mem_cons_self, h.names⟩

theorem preferred_ending_iff :
    p.ending.Preferred ↔ ¬ p.BeginsWithThis := by
  obtain ⟨hops, metadata, segments, trusted⟩ := p
  cases metadata with
  | some name =>
      simp [ending, PathExpr.Ending.Preferred, BeginsWithThis]
  | none =>
      cases segments <;> simp [ending, PathExpr.Ending.Preferred, BeginsWithThis]

end Path

namespace PathExpr

theorem toPath_meaning
    (e : Ending) (n : Nat) :
    (e.meaning n).toPath = e.target.toPath.up (n + e.steps : Nat) := by
  have hstay : ∀ q : Path, q.up (0 : Nat) = q := by
    intro q
    simp [Path.up]
  rw [Ending.meaning]
  split
  · next hzero =>
      rw [hzero, hstay]
  · rfl

/-- The derivation in whose form a path is written means that path. -/
theorem toPath_meaning_ending
    {p : Path}
    (h : p.Plain) :
    (p.ending.meaning p.hops.toNat).toPath = p := by
  obtain ⟨hops, metadata, segments, trusted⟩ := p
  obtain rfl : trusted = false := h.untrusted
  obtain ⟨n, rfl⟩ : ∃ n : Nat, hops = n := h.climbs
  rw [toPath_meaning]
  cases metadata with
  | some name =>
      simp [Path.ending, Ending.target, Ending.steps, toPath, Path.up]
  | none =>
      cases segments <;> simp [Path.ending, Ending.target, Ending.steps, toPath, Path.up]

theorem plain_target
    {n : Nat} {e : Ending}
    (h : e.Allowed n) :
    e.target.toPath.Plain := by
  cases e with
  | nothing | outwards | this | dot =>
      exact ⟨⟨0, rfl⟩, fun s hs => absurd hs List.not_mem_nil, rfl⟩
  | metadata name tail =>
      exact ⟨⟨0, rfl⟩, h, rfl⟩
  | dotted sign first rest =>
      exact ⟨⟨0, rfl⟩, h.2, rfl⟩

theorem plain_of_read
    {t : Bytes} {e : PathExpr}
    (h : read t = .ok e) :
    e.toPath.Plain := by
  obtain ⟨n, ending, hallowed, -, -, rfl⟩ := read_eq_ok_iff.1 h
  obtain ⟨⟨m, hm⟩, hnames, huntrusted⟩ := plain_target hallowed
  rw [toPath_meaning]
  refine ⟨⟨n + ending.steps + m, ?_⟩, hnames, huntrusted⟩
  rw [Path.up, hm, Int.natCast_add (n + ending.steps)]

/-! ## Reading again -/

theorem read_written
    {p : Path}
    (h : p.Plain)
    (hthis : ¬ p.BeginsWithThis) :
    ∃ e, read p.written = .ok e ∧ e.toPath = p := by
  refine ⟨p.ending.meaning p.hops.toNat, ?_, toPath_meaning_ending h⟩
  rw [Path.written_eq h]
  exact read_of_preferred (Path.allowed_ending h _) (Path.preferred_ending_iff.2 hthis)

/-- A first name `this` is lost. -/
theorem read_written_of_beginsWithThis
    {p : Path}
    (h : p.Plain)
    (hthis : p.BeginsWithThis) :
    ∃ e, read p.written = .ok e ∧ e.toPath = { p with segments := p.segments.tail } := by
  obtain ⟨hmetadata, hfirst⟩ := hthis
  obtain ⟨rest, hsegments⟩ := List.head?_eq_some_iff.1 hfirst
  have hnames : ∀ s ∈ rest, Segment s := fun s hs =>
    h.names s (by simp [hsegments, hs])
  -- Behind `this` the names stand as behind the sign of the context.
  have hread : ∀ e : Ending, e.text = p.ending.text → e.Allowed p.hops.toNat → e.Preferred →
      read p.written = .ok (e.meaning p.hops.toNat) := by
    intro e htext hallowed hpreferred
    rw [Path.written_eq h, ← htext]
    exact read_of_preferred hallowed hpreferred
  have hending : p.ending = .dotted [] (utf8 "this") rest := by
    simp [Path.ending, hmetadata, hsegments]
  obtain ⟨n, hn⟩ := h.climbs
  have htrusted := h.untrusted
  cases rest with
  | nil =>
      refine ⟨_, hread .this (by rw [hending]; rfl) trivial trivial, ?_⟩
      rw [toPath_meaning, hsegments]
      simp [Ending.target, Ending.steps, toPath, Path.up, hn, hmetadata, htrusted]
  | cons next rest =>
      refine ⟨_, hread (.dotted (utf8 "this.") next rest) (by rw [hending]; rfl)
        ⟨by decide, hnames⟩ trivial, ?_⟩
      rw [toPath_meaning, hsegments]
      simp [Ending.target, Ending.steps, toPath, Path.up, hn, hmetadata, htrusted]

end PathExpr

/-! ## Telling the two paths apart -/

namespace Value

/-- A value inside of records with one field each. -/
def nest : (keys : List Bytes) → Value → Value
  | [], v => v
  | key :: rest, v => record [(key, nest rest v)] []

theorem getAll_nest
    (keys : List Bytes) (v : Value) :
    (nest keys v).getAll keys = v := by
  induction keys with
  | nil =>
      rfl
  | cons key rest ih =>
      have hget : (nest (key :: rest) v).get key = nest rest v := by
        simp [nest, get, field?]
      rw [getAll, List.foldl_cons, hget]
      exact ih

/-- Fewer names do not lead to the value inside. -/
theorem kind_getAll_nest
    {keys outer : List Bytes}
    (h : keys.length < outer.length)
    (v : Value) :
    ((nest outer v).getAll keys).kind ∈ [Kind.record, Kind.null] := by
  induction keys generalizing outer with
  | nil =>
      obtain ⟨key, rest, rfl⟩ := List.exists_cons_of_length_pos h
      exact List.mem_cons_self
  | cons name keys ih =>
      obtain ⟨key, rest, rfl⟩ := List.exists_cons_of_length_pos (Nat.lt_of_le_of_lt (Nat.zero_le _) h)
      rw [getAll, List.foldl_cons]
      by_cases hname : name = key
      · subst hname
        have hget : (nest (name :: rest) v).get name = nest rest v := by
          simp [nest, get, field?]
        rw [hget]
        exact ih (Nat.lt_of_succ_lt_succ h)
      · have hget : (nest (key :: rest) v).get name = null := by
          have hne : (name == key) = false := by simpa using hname
          simp [nest, get, field?, List.lookup_cons, hne]
        have hnull : keys.foldl (fun v key => v.get key) null = null := getAll_null keys
        rw [hget, hnull]
        decide

end Value

/-- A path of properties and the same path with a name less lead to different values somewhere. -/
theorem Scope.exists_lookup_ne
    {p : Path}
    (hmetadata : p.metadata = none)
    (htrusted : p.trusted = false)
    (hsegments : p.segments ≠ []) :
    ∃ s : Scope, s.lookup { p with segments := p.segments.tail } ≠ s.lookup p := by
  let data := Value.nest p.segments (.text [])
  let s : Scope := List.replicate (p.hops.toNat + 1) { data }
  have hlookup : ∀ q : Path, q.metadata = none → q.trusted = false → q.hops = p.hops →
      s.lookup q = data.getAll q.segments := by
    intro q hq hq' hhops
    have hdrop : s.drop q.hops.toNat = [{ data }] := by
      rw [List.drop_replicate, hhops, Nat.add_sub_cancel_left]
      rfl
    simp only [lookup, start, hq, hq', hdrop]
    rfl
  refine ⟨s, fun heq => ?_⟩
  rw [hlookup p hmetadata htrusted rfl, Value.getAll_nest,
    hlookup { p with segments := p.segments.tail } hmetadata htrusted rfl] at heq
  have hshorter : p.segments.tail.length < p.segments.length := by
    have hpositive := List.length_pos_iff.2 hsegments
    rw [List.length_tail]
    omega
  have hkind := Value.kind_getAll_nest hshorter (.text [])
  rw [heq] at hkind
  exact absurd hkind (by decide)

namespace PathExpr

/-- Of the paths that come from a text, exactly those that do not begin with the name `this` are
read back from the form in which they are written.  The written form of any other one is read too,
but as the path without that name, which leads to another value in some contexts. -/
theorem written_reads_back_iff
    {t : Bytes} {e : PathExpr}
    (h : read t = .ok e) :
    ((∃ e', read e.toPath.written = .ok e' ∧ e'.toPath = e.toPath) ↔
        ¬ (e.toPath.metadata = none ∧ e.toPath.segments.head? = some (utf8 "this"))) ∧
      (e.toPath.metadata = none ∧ e.toPath.segments.head? = some (utf8 "this") →
        ∃ e', read e.toPath.written = .ok e' ∧ e'.toPath ≠ e.toPath ∧
          e'.toPath = { e.toPath with segments := e.toPath.segments.tail } ∧
          ∃ s : Scope, s.lookup e'.toPath ≠ s.lookup e.toPath) := by
  have hplain := plain_of_read h
  have hother : e.toPath.BeginsWithThis → ∃ e', read e.toPath.written = .ok e' ∧
      e'.toPath ≠ e.toPath ∧ e'.toPath = { e.toPath with segments := e.toPath.segments.tail } ∧
      ∃ s : Scope, s.lookup e'.toPath ≠ s.lookup e.toPath := by
    intro hthis
    obtain ⟨e', hread, heq⟩ := read_written_of_beginsWithThis hplain hthis
    have hsegments : e.toPath.segments ≠ [] := by
      intro hnil
      have hfirst := hthis.2
      rw [hnil] at hfirst
      cases hfirst
    obtain ⟨s, hs⟩ := Scope.exists_lookup_ne hthis.1 hplain.untrusted hsegments
    rw [← heq] at hs
    refine ⟨e', hread, fun hsame => ?_, heq, s, hs⟩
    rw [hsame] at hs
    exact hs rfl
  refine ⟨⟨?_, read_written hplain⟩, hother⟩
  rintro ⟨e', hread, heq⟩ hthis
  obtain ⟨e'', hread', hne, -⟩ := hother hthis
  rw [hread] at hread'
  exact hne (Except.ok.inj hread' ▸ heq)

/-- The name `this` is lost from two paths and kept behind `@` and as a later name. -/
theorem written_reads_back_samples :
    read (utf8 "this.this") = .ok (.dotted [utf8 "this"]) ∧
      read (utf8 "./this.a") = .ok (.dotted [utf8 "this", utf8 "a"]) ∧
      (∃ e', read (Path.written { segments := [utf8 "this"] }) = .ok e' ∧
        e'.toPath = {}) ∧
      (∃ e', read (Path.written { segments := [utf8 "this", utf8 "a"] }) = .ok e' ∧
        e'.toPath = { segments := [utf8 "a"] }) ∧
      ∃ e', read (Path.written { hops := 2, metadata := some (utf8 "this") }) = .ok e' ∧
        e'.toPath = { hops := 2, metadata := some (utf8 "this") } := by
  have hshort : read (utf8 "this.this") = .ok (.dotted [utf8 "this"]) := rfl
  have hlong : read (utf8 "./this.a") = .ok (.dotted [utf8 "this", utf8 "a"]) := rfl
  have hvariable : read (utf8 "../../@this") = .ok (.parent 2 (.metadata (utf8 "this") [])) := rfl
  obtain ⟨e₁, hread₁, -, heq₁, -⟩ := (written_reads_back_iff hshort).2 ⟨rfl, rfl⟩
  obtain ⟨e₂, hread₂, -, heq₂, -⟩ := (written_reads_back_iff hlong).2 ⟨rfl, rfl⟩
  refine ⟨hshort, hlong, ⟨e₁, hread₁, heq₁⟩, ⟨e₂, hread₂, heq₂⟩, ?_⟩
  exact (written_reads_back_iff hvariable).1.2 fun hnone => absurd hnone.1 (by decide)

end PathExpr
end Stencil
