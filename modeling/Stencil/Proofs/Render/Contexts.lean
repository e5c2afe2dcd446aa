import Stencil.Proofs.Fields
import Stencil.Scope

/-!
# What holds of all values in some contexts

A property of values that null has and that reading a property of a value keeps holds of whatever
is looked up in contexts where it holds of all values in view and of all metadata.

Result: `Scope.All.lookup`.
-/

namespace Stencil
namespace Scope

/-- All values in some contexts and in their metadata have a property. -/
def All (P : Value → Prop) (s : Scope) : Prop :=
  ∀ f ∈ s, P f.data ∧ ∀ m ∈ f.metadata, P m.2

namespace All

variable {P : Value → Prop} {s : Scope}

theorem drop
    (hs : s.All P)
    (n : Nat) :
    All P (s.drop n) :=
  fun f hf => hs f (List.mem_of_mem_drop hf)

theorem push
    {inner : Value} {metadata : Metadata}
    (hs : s.All P)
    (hinner : P inner)
    (hmetadata : ∀ m ∈ metadata, P m.2) :
    (s.push inner metadata).All P := by
  intro f hf
  rcases List.mem_cons.1 hf with rfl | hf
  · exact ⟨hinner, hmetadata⟩
  · exact hs f hf

theorem root
    {data : Value}
    (hdata : P data) :
    (Scope.root data).All P := by
  intro f hf
  obtain rfl := List.mem_singleton.1 hf
  refine ⟨hdata, fun m hm => ?_⟩
  cases hm

variable (hnull : P .null)

include hnull in
theorem data
    (hs : s.All P) :
    P s.data := by
  cases s with
  | nil =>
      exact hnull
  | cons f rest =>
      exact (hs f List.mem_cons_self).1

include hnull in
theorem metadata
    (hs : s.All P)
    (name : Bytes) :
    P (s.metadata name) := by
  induction s with
  | nil =>
      exact hnull
  | cons f rest ih =>
      rw [Scope.metadata]
      cases hfound : f.metadata.lookup name with
      | none =>
          exact ih fun g hg => hs g (List.mem_cons_of_mem f hg)
      | some v =>
          exact (hs f List.mem_cons_self).2 _ (Fields.mem_of_lookup hfound)

include hnull in
theorem start
    (hs : s.All P)
    (p : Path) :
    P (s.start p) := by
  unfold Scope.start
  split
  · exact data hnull hs
  · split
    · refine data hnull fun f hf => hs f ?_
      exact List.mem_of_getLast? (Option.mem_toList.1 hf)
    · exact metadata hnull hs _

include hnull in
/-- A path leads to a value with the property. -/
theorem lookup
    (hget : ∀ v key, P v → P (v.get key))
    (hs : s.All P)
    {p : Path}
    (htrust : p.trusted = true → ∀ v, P v → P v.trust) :
    P (s.lookup p) := by
  have hread : ∀ (segments : List Bytes) (v : Value), P v →
      P (segments.foldl (fun v key => v.get key) v) := by
    intro segments
    induction segments with
    | nil =>
        intro v hv
        exact hv
    | cons key rest ih =>
        intro v hv
        exact ih _ (hget v key hv)
  have hfound := hread p.segments _ (start hnull (hs.drop p.hops.toNat) p)
  unfold Scope.lookup
  by_cases htrusted : p.trusted = true
  · simp only [htrusted, if_true]
    exact htrust htrusted _ hfound
  · simp only [htrusted]
    exact hfound

end All
end Scope
end Stencil
