import Stencil.Proofs.Checks
import Stencil.Proofs.Render.Builtins
import Stencil.Proofs.Render.Discipline
import Stencil.Proofs.Render.Encoding

/-!
# Rendering in lockstep

Two ways to render are in lockstep when they give related forests, record the same failure and count
the same active partial calls.  Blocks whose sections are in lockstep are in lockstep if their helpers
go on alike when related forests come out.  The helpers that every engine has look at values only and
never at what their sections give, so they do, whatever the relation of forests is, as long as it
allows to put forests together.

Results: `Helper.uniform_builtins`, `Lockstep.block` and `Lockstep.inclusion`.
-/

namespace Stencil

/-! ## Level runs -/

/-- A relation of forests that allows to put them together. -/
structure Joins (R : List Node → List Node → Prop) : Prop where
  nil : R [] []
  append : ∀ {ns ms ns' ms' : List Node}, R ns ms → R ns' ms' → R (ns ++ ns') (ms ++ ms')

/-- Two runs with the same failure and as many active partial calls. -/
structure Run.Level (r r' : Run) : Prop where
  failure : r.failure = r'.failure
  active : r.active = r'.active

namespace Run.Level

variable {r r' : Run}

theorem note
    (h : r.Level r')
    (e e' : Event) :
    (r.note e).Level (r'.note e') :=
  ⟨h.failure, h.active⟩

theorem fail
    (h : r.Level r')
    (e : RenderError) :
    (r.fail e).Level (r'.fail e) := by
  refine ⟨?_, by rw [Run.active_fail, Run.active_fail, h.active]⟩
  cases hfailure : r.failure with
  | none =>
      rw [Run.failure_fail hfailure, Run.failure_fail (h.failure ▸ hfailure)]
  | some e' =>
      rw [Run.fail_of_failure hfailure, Run.fail_of_failure (h.failure ▸ hfailure), h.failure]

end Run.Level

variable {P : Scope → Prop} {R : List Node → List Node → Prop}

/-- In contexts of some kind, level runs give related forests and stay level. -/
def Lockstep (P : Scope → Prop) (R : List Node → List Node → Prop) (f g : Render) : Prop :=
  ∀ s r r', P s → r.Level r' → R (f s r).1 (g s r').1 ∧ (f s r).2.Level (g s r').2

theorem Lockstep.nothing
    (hR : Joins R) :
    Lockstep P R Render.nothing Render.nothing :=
  fun _ _ _ _ hr => ⟨hR.nil, hr⟩

theorem Lockstep.append
    (hR : Joins R)
    {f f' g g' : Render}
    (hf : Lockstep P R f f')
    (hg : Lockstep P R g g') :
    Lockstep P R (Render.append f g) (Render.append f' g') := by
  intro s r r' hs hr
  obtain ⟨hfirst, hmiddle⟩ := hf s r r' hs hr
  obtain ⟨hsecond, hend⟩ := hg s _ _ hs hmiddle
  exact ⟨hR.append hfirst hsecond, hend⟩

/-! ## Helpers -/

/-- What helpers end with: related nodes, or the same with nodes that are related to themselves. -/
inductive Datum.Follows (R : List Node → List Node → Prop) : Datum → Datum → Prop where
  | nodes {ns ms : List Node} : R ns ms → Follows R (.nodes ns) (.nodes ms)
  | same {d : Datum} : (∀ ns, d.splice = .ok ns → R ns ns) → Follows R d d

/-- Two courses of action that render the same sections in the same contexts, and that go on alike
when related forests come out. -/
inductive Action.Follows (P : Scope → Prop) (R : List Node → List Node → Prop) :
    Action → Action → Prop where
  | done {d d' : Datum} : d.Follows R d' → Follows P R (.done d) (.done d')
  | fail (e : RenderError) : Follows P R (.fail e) (.fail e)
  | render {part : Section} {inner : Value} {outer : Scope} {metadata : Metadata}
      {next next' : Except RenderError (List Node) → Action} :
      P (outer.push inner metadata) →
      (∀ o o', Corresponds R o o' → Follows P R (next o) (next' o')) →
      Follows P R (.render part inner outer metadata next)
        (.render part inner outer metadata next')

/-- The arguments of a call are well-formed. -/
def Arguments.Encoded (a : Arguments) : Prop := ∀ v ∈ a.positional, v.isUtf8 = true

/-- A helper that does not look at what its sections give. -/
def Helper.Uniform (helper : Helper) : Prop :=
  ∀ R, Joins R → ∀ a s hasInverse, a.Encoded → s.Encoded →
    Action.Follows Scope.Encoded R (helper a s hasInverse) (helper a s hasInverse)

theorem Arguments.Encoded.nth
    {a : Arguments}
    (ha : a.Encoded)
    (i : Int) :
    (a.nth i).isUtf8 = true := by
  unfold Arguments.nth
  split
  · rfl
  · cases hitem : a.positional[i.toNat]? with
    | none =>
        rfl
    | some v =>
        exact ha v (List.mem_of_getElem? hitem)

namespace Action

theorem follows_showSection
    {inner : Value} {outer : Scope}
    (hinner : inner.isUtf8 = true)
    (houter : outer.Encoded)
    (part : Section) :
    Follows Scope.Encoded R (showSection part inner outer) (showSection part inner outer) := by
  refine .render (houter.push hinner fun m hm => absurd hm List.not_mem_nil) fun o o' h => ?_
  cases h with
  | ok hnodes =>
      exact .done (.nodes hnodes)
  | error e =>
      exact .fail e

theorem follows_showEach
    (hR : Joins R)
    {outer : Scope} {passes : List (Value × Metadata)}
    (houter : outer.Encoded)
    (hpasses : ∀ p ∈ passes, p.1.isUtf8 = true ∧ ∀ m ∈ p.2, m.2.isUtf8 = true)
    {shown shown' : List Node}
    (hshown : R shown shown') :
    Follows Scope.Encoded R (showEach outer passes shown) (showEach outer passes shown') := by
  induction passes generalizing shown shown' with
  | nil =>
      exact .done (.nodes hshown)
  | cons p rest ih =>
      obtain ⟨hp, hrest⟩ := List.forall_mem_cons.1 hpasses
      refine .render (houter.push hp.1 hp.2) fun o o' h => ?_
      cases h with
      | ok hnodes =>
          exact ih hrest (hR.append hshown hnodes)
      | error e =>
          exact .fail e

end Action

namespace Helper

theorem isUtf8_iterationMetadata
    (index count : Nat) :
    ∀ m ∈ iterationMetadata index count, m.2.isUtf8 = true := by
  intro m hm
  simp only [iterationMetadata, List.mem_cons, List.not_mem_nil, or_false] at hm
  rcases hm with rfl | rfl | rfl <;> rfl

theorem isUtf8_listPasses
    {items : List Value}
    (h : ∀ v ∈ items, v.isUtf8 = true) :
    ∀ p ∈ listPasses items, p.1.isUtf8 = true ∧ ∀ m ∈ p.2, m.2.isUtf8 = true := by
  intro p hp
  obtain ⟨i, hi, rfl⟩ := List.mem_mapIdx.1 hp
  exact ⟨h _ (List.getElem_mem hi), isUtf8_iterationMetadata _ _⟩

theorem isUtf8_recordPasses
    {entries : List (Bytes × Value)}
    (h : ∀ e ∈ entries, isUtf8 e.1 = true ∧ e.2.isUtf8 = true) :
    ∀ p ∈ recordPasses entries, p.1.isUtf8 = true ∧ ∀ m ∈ p.2, m.2.isUtf8 = true := by
  intro p hp
  obtain ⟨i, hi, rfl⟩ := List.mem_mapIdx.1 hp
  obtain ⟨hkey, hvalue⟩ := h _ (List.getElem_mem hi)
  refine ⟨hvalue, List.forall_mem_append.2 ⟨isUtf8_iterationMetadata _ _, ?_⟩⟩
  exact List.forall_mem_singleton.2 hkey

/-- The helpers that every engine has do not look at what their sections give. -/
theorem uniform_builtins
    {name : Bytes} {helper : Helper}
    (h : builtins.lookup name = some helper) :
    helper.Uniform := by
  intro R hR a s hasInverse ha hs
  have harg := ha.nth 0
  refine builtin_cases (motive := fun x => x.Follows Scope.Encoded R x) (Fields.mem_of_lookup h)
    a s hasInverse (fun part => Action.follows_showSection hs.data hs part)
    (Action.follows_showSection harg hs .body) (fun items hlist => ?_)
    (fun fields aliases hrecord => ?_) fun _ => .fail _
  · rw [hlist] at harg
    exact Action.follows_showEach hR hs (isUtf8_listPasses (Value.allUtf8_iff.1 harg)) hR.nil
  · rw [hrecord] at harg
    exact Action.follows_showEach hR hs (isUtf8_recordPasses (Value.isUtf8_entries harg)) hR.nil

end Helper

/-! ## Calls -/

namespace Lockstep

theorem enter
    (hR : Joins R)
    {part part' : Option Render} {inner : Value} {outer : Scope} {metadata : Metadata}
    (hpart : Option.Rel (Lockstep P R) part part')
    (hscope : P (outer.push inner metadata))
    {r r' : Run}
    (hr : r.Level r') :
    Corresponds R (Render.enter part inner outer metadata r).1
        (Render.enter part' inner outer metadata r').1 ∧
      (Render.enter part inner outer metadata r).2.Level
        (Render.enter part' inner outer metadata r').2 := by
  cases hfailure : r.failure with
  | some e =>
      rw [Render.enter_of_failure hfailure, Render.enter_of_failure (hr.failure ▸ hfailure)]
      exact ⟨.error e, hr⟩
  | none =>
      have hfailure' : r'.failure = none := hr.failure ▸ hfailure
      cases hpart with
      | none =>
          rw [Render.enter_missing hfailure, Render.enter_missing hfailure']
          exact ⟨.ok hR.nil, hr⟩
      | some hf =>
          obtain ⟨hnodes, hend⟩ := hf _ r r' hscope hr
          rw [Render.enter_present hfailure, Render.enter_present hfailure']
          refine ⟨?_, hend⟩
          simp only [← hend.failure]
          split
          · exact .error _
          · exact .ok hnodes

theorem perform
    (hR : Joins R)
    {body body' : Render} {inverse inverse' : Option Render}
    (hbody : Lockstep P R body body')
    (hinverse : Option.Rel (Lockstep P R) inverse inverse')
    {action action' : Action}
    (haction : action.Follows P R action')
    {r r' : Run}
    (hr : r.Level r') :
    Corresponds (Datum.Follows R) (Render.perform body inverse action r).1
        (Render.perform body' inverse' action' r').1 ∧
      (Render.perform body inverse action r).2.Level
        (Render.perform body' inverse' action' r').2 := by
  induction haction generalizing r r' with
  | done hgiven =>
      exact ⟨.ok hgiven, hr⟩
  | fail e =>
      exact ⟨.error e, hr⟩
  | @render part inner outer metadata next next' hscope _ ih =>
      obtain ⟨houtcome, hend⟩ := enter hR (Render.rel_chosen hbody hinverse part) hscope hr
      rw [Render.perform_render, Render.perform_render]
      exact ih _ _ houtcome (hend.note _ _)

theorem conclude
    (hR : Joins R)
    {name : Bytes} {result result' : Except RenderError Datum} {r r' : Run}
    (hresult : Corresponds (Datum.Follows R) result result')
    (hr : r.Level r') :
    R (Render.conclude name result r).1 (Render.conclude name result' r').1 ∧
      (Render.conclude name result r).2.Level (Render.conclude name result' r').2 := by
  cases hresult with
  | error e =>
      exact ⟨hR.nil, hr.fail _⟩
  | @ok d d' hgiven =>
      unfold Render.conclude
      simp only [← hr.failure]
      cases r.failure with
      | some e =>
          exact ⟨hR.nil, hr⟩
      | none =>
          cases hgiven with
          | nodes hnodes =>
              exact ⟨hnodes, hr⟩
          | same hsame =>
              cases hsplice : d.splice with
              | ok ns =>
                  exact ⟨hsame ns hsplice, hr⟩
              | error type =>
                  exact ⟨hR.nil, hr.fail _⟩

/-- Calls of a helper that goes on alike when related forests come out. -/
theorem block
    (hR : Joins R)
    {l l' : Linkage} {name : Bytes} {arguments : Scope → Arguments} {body body' : Render}
    {inverse inverse' : Option Render}
    (hhelper : l.helper name = l'.helper name)
    (hfollows : ∀ helper, l.helper name = some helper → ∀ s hasInverse, P s →
      (helper (arguments s) s hasInverse).Follows P R (helper (arguments s) s hasInverse))
    (hbody : Lockstep P R body body')
    (hinverse : Option.Rel (Lockstep P R) inverse inverse') :
    Lockstep P R (Render.block l name arguments body inverse)
      (Render.block l' name arguments body' inverse') := by
  intro s r r' hs hr
  have hsome : inverse.isSome = inverse'.isSome := by
    cases hinverse <;> rfl
  cases hfailure : r.failure with
  | some e =>
      rw [Render.block_of_failure hfailure, Render.block_of_failure (hr.failure ▸ hfailure)]
      exact ⟨hR.nil, hr⟩
  | none =>
      have hfailure' : r'.failure = none := hr.failure ▸ hfailure
      cases hfound : l.helper name with
      | none =>
          rw [Render.block_of_unknown hfailure hfound,
            Render.block_of_unknown hfailure' (hhelper ▸ hfound)]
          exact ⟨hR.nil, hr.fail _⟩
      | some helper =>
          rw [Render.block_of_helper hfailure hfound,
            Render.block_of_helper hfailure' (hhelper ▸ hfound), ← hsome]
          obtain ⟨hresult, hend⟩ := perform hR hbody hinverse
            (hfollows helper hfound s inverse.isSome hs)
            (hr.note (.helper name (arguments s) s) (.helper name (arguments s) s))
          exact conclude hR hresult hend

/-- Calls of a partial. -/
theorem inclusion
    (hR : Joins R)
    {l l' : Linkage} {name : Bytes} {base : Value} {parameters : List (Bytes × Value)}
    (hbound : l.bound = l'.bound)
    (hinclusion : Option.Rel (Lockstep P R) (l.inclusion name) (l'.inclusion name))
    (hdata : P (Scope.root (Render.includedData base parameters)))
    {r r' : Run}
    (hr : r.Level r') :
    R (Render.inclusion l name base parameters r).1
        (Render.inclusion l' name base parameters r').1 ∧
      (Render.inclusion l name base parameters r).2.Level
        (Render.inclusion l' name base parameters r').2 := by
  cases hfailure : r.failure with
  | some e =>
      rw [Render.inclusion_of_failure hfailure,
        Render.inclusion_of_failure (hr.failure ▸ hfailure)]
      exact ⟨hR.nil, hr⟩
  | none =>
      have hfailure' : r'.failure = none := hr.failure ▸ hfailure
      generalize hf : l.inclusion name = f at hinclusion
      generalize hg : l'.inclusion name = g at hinclusion
      cases hinclusion with
      | none =>
          rw [Render.inclusion_of_unknown hfailure hf, Render.inclusion_of_unknown hfailure' hg]
          exact ⟨hR.nil, hr.fail _⟩
      | some hrender =>
          have hdeep : l'.bound.any (· ≤ r'.active) = l.bound.any (· ≤ r.active) := by
            rw [hbound, hr.active]
          cases hbounded : l.bound.any (· ≤ r.active) with
          | true =>
              rw [Render.inclusion_of_deep hfailure hf hbounded,
                Render.inclusion_of_deep hfailure' hg (hdeep.trans hbounded), hr.active]
              exact ⟨hR.nil, hr.fail _⟩
          | false =>
              rw [Render.inclusion_of_partial hfailure hf hbounded,
                Render.inclusion_of_partial hfailure' hg (hdeep.trans hbounded)]
              have hstart : (Render.descend name (Render.includedData base parameters) r).Level
                  (Render.descend name (Render.includedData base parameters) r') :=
                ⟨hr.failure, congrArg (· + 1) hr.active⟩
              obtain ⟨hnodes, hend⟩ := hrender _ _ _ hdata hstart
              exact ⟨hnodes, hend.failure, congrArg (· - 1) hend.active⟩

end Lockstep

end Stencil
