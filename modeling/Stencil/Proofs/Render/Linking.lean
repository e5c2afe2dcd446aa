import Stencil.Proofs.Render.Builtins
import Stencil.Proofs.Render.Contract

/-!
# Linked programs

A compiled program calls names that were known when it was compiled.  Where all of these are
registered, and the partials in turn call registered names only, no run fails with a name that is
not registered, unless a helper reports such a failure in its own right.

Results: `knows_of_compile` for programs and `Registry.Closed.render` for their runs.
-/

namespace Stencil

/-! ## Names that steps call -/

/-- The name that a step calls, if it calls one, is known. -/
def Names.Knows (names : Names) : Op → Prop
  | .block name _ _ _ _ _ => names.helper name = true
  | .inclusion name _ _ => names.partialName name = true
  | .literal _ | .interpolation _ | .element .. | .unknown => True

/-- All names of the one are names of the other. -/
structure Names.Within (names names' : Names) : Prop where
  helper : ∀ name, names.helper name = true → names'.helper name = true
  partialName : ∀ name, names.partialName name = true → names'.partialName name = true

theorem Names.Within.knows
    {names names' : Names} {op : Op}
    (h : names.Within names')
    (hop : names.Knows op) :
    names'.Knows op := by
  cases op with
  | block name arguments named body inverse synthetic =>
      exact h.helper name hop
  | inclusion name context parameters =>
      exact h.partialName name hop
  | literal | interpolation | element | unknown =>
      trivial

/-- All names that a compiled list calls are known. -/
theorem Compiled.knows
    {names : Names} {depth : Nat} {list : List Item} {ops : List Op}
    (h : Compiled names depth list ops) :
    ∀ op ∈ Op.allSteps ops, names.Knows op := by
  refine Compiled.steps (I := fun _ => True) (fun depth span mark op _ hcompiled => ?_)
    (fun _ _ _ _ _ _ known => known) (fun _ _ _ _ _ _ _ _ _ _ => trivial)
    (fun _ _ _ _ => ⟨fun _ _ => trivial, fun _ _ _ _ => trivial, fun _ _ => trivial⟩) h
    fun _ _ => trivial
  cases hcompiled with
  | literal | interpolation =>
      trivial
  | inclusion known _ _ =>
      exact known

theorem compile_eq_ok
    {reading : Reading} {names : Names} {name source : Bytes} {p : Program}
    (h : compile reading names name source = .ok p) :
    ∃ trees, Tree.read reading source = .ok trees ∧ Compile.forest names trees = .ok p.ops := by
  simp only [compile] at h
  split at h
  · next ops hops =>
      cases h
      exact bind_eq_ok_iff.1 hops
  · cases h

/-- All names that a compiled template calls are known. -/
theorem knows_of_compile
    {reading : Reading} {names : Names} {name source : Bytes} {p : Program}
    (h : compile reading names name source = .ok p) :
    ∀ op ∈ Op.allSteps p.ops, names.Knows op := by
  obtain ⟨trees, _, htrees⟩ := compile_eq_ok h
  exact (Compile.nodes_eq_ok_iff.1 htrees).knows

/-! ## Helpers that report no unknown name -/

/-- Whether a failure comes from a name that is not registered. -/
def RenderError.isUnknownName (e : RenderError) : Bool :=
  match e.root with
  | .unknownHelper _ | .unknownPartial _ => true
  | _ => false

/-- The actions of a helper never end with an unknown name, unless a section gave it one. -/
def Action.Honest : Action → Prop
  | .done _ => True
  | .fail e => e.isUnknownName = false
  | .render _ _ _ _ next =>
    ∀ outcome, (∀ e, outcome = .error e → e.isUnknownName = false) → (next outcome).Honest

/-- A helper that returns no failure of an unknown name itself. -/
def Helper.Honest (helper : Helper) : Prop :=
  ∀ arguments s hasInverse, (helper arguments s hasInverse).Honest

theorem Action.honest_showSection
    (part : Section) (inner : Value) (s : Scope) :
    (Action.showSection part inner s).Honest := by
  intro outcome houtcome
  cases outcome with
  | ok nodes =>
      trivial
  | error e =>
      exact houtcome e rfl

theorem Action.honest_showEach
    (s : Scope) (passes : List (Value × Metadata)) (shown : List Node) :
    (Action.showEach s passes shown).Honest := by
  induction passes generalizing shown with
  | nil =>
      trivial
  | cons pass rest ih =>
      intro outcome houtcome
      cases outcome with
      | ok nodes =>
          exact ih (shown ++ nodes)
      | error e =>
          exact houtcome e rfl

theorem Helper.honest_builtins :
    ∀ entry ∈ Helper.builtins, Helper.Honest entry.2 :=
  fun _ hentry a s hasInverse =>
    builtin_cases (motive := Action.Honest) hentry a s hasInverse
      (fun part => Action.honest_showSection part s.data s)
      (Action.honest_showSection .body (a.nth 0) s)
      (fun _ _ => Action.honest_showEach s _ [])
      (fun _ _ _ => Action.honest_showEach s _ []) fun _ => rfl

/-! ## Runs of linked programs -/

/-- Programs that call known names only record no failure of an unknown name. -/
def Names.contract (names : Names) : Contract where
  step := names.Knows
  value := fun _ => True
  node := fun _ => True
  failure := fun e => e.isUnknownName = false

theorem Action.Honest.contract
    {names : Names} {action : Action}
    (h : action.Honest) :
    names.contract.Action action := by
  induction action with
  | done d =>
      intro ns _ n _
      trivial
  | fail e =>
      exact h
  | render part inner outer metadata next ih =>
      refine ⟨fun f _ => ⟨trivial, fun m _ => trivial⟩, fun outcome houtcome => ih outcome ?_⟩
      refine h outcome fun e he => ?_
      subst he
      exact houtcome

/-- A registry in which all names are found, whose partials call such names only. -/
structure Registry.Closed (reg : Registry) (names : Names) : Prop where
  helper : ∀ name, names.helper name = true → (reg.helper name).isSome = true
  partialName : ∀ name, names.partialName name = true → (reg.partialOps name).isSome = true
  honest : ∀ name helper, reg.helper name = some helper → helper.Honest
  linked : ∀ name ops, reg.partialOps name = some ops → ∀ op ∈ Op.allSteps ops, names.Knows op

theorem Registry.Closed.kept
    {reg : Registry} {names : Names}
    (h : reg.Closed names) :
    names.contract.Kept reg where
  null := trivial
  constant := fun _ => trivial
  get := fun _ _ _ => trivial
  trust := fun _ _ _ _ _ _ _ => trivial
  included := fun _ _ _ _ => trivial
  display := fun _ _ _ _ => trivial
  literal := fun _ _ => trivial
  element := fun _ _ _ _ _ _ _ _ _ _ _ => trivial
  helper := fun name helper hhelper a s hasInverse _ _ =>
    (h.honest name helper hhelper a s hasInverse).contract
  partialOps := h.linked
  noHelper := by
    intro name arguments named body inverse synthetic hstep hnone
    have hfound := h.helper name hstep
    rw [hnone] at hfound
    cases hfound
  noPartial := by
    intro name context parameters hstep hnone
    have hfound := h.partialName name hstep
    rw [hnone] at hfound
    cases hfound
  within := fun _ _ he => he
  unsupported := fun _ => rfl
  recursion := fun _ _ => rfl
  exhausted := rfl

/-- A program that calls known names only never fails with an unknown one. -/
theorem Registry.Closed.render
    {reg : Registry} {names : Names} {ops : List Op} {data : Value} {e : RenderError}
    (h : reg.Closed names)
    (hops : ∀ op ∈ Op.allSteps ops, names.Knows op)
    {bound fuel : Nat}
    (hrender : Stencil.render reg bound fuel ops data = .error e) :
    e.isUnknownName = false := by
  unfold Stencil.render at hrender
  simp only at hrender
  split at hrender
  · have houtcome := h.kept.run hops data trivial (if bound = 0 then none else some bound)
      (if bound = 0 then fuel else bound)
    rw [hrender] at houtcome
    exact houtcome
  · cases hrender
    rfl

end Stencil
