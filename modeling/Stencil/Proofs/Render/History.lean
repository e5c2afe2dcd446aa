import Stencil.Proofs.Render.Discipline

/-!
# The history of a run

Whatever is rendered in a run only adds to what the run has noted: it does not look at what was
noted before.  So what a part of a program does in the middle of a run is what it does in a run of
its own that has no history, as long as neither has failed and the same number of partial calls is
active.

Algorithm: `Oblivious` says this of a computation with any events put behind its log.  The building
blocks of rendering respect it, so it goes over to programs, and over to registered partials by
induction on how deep their calls may nest.

Results: `Render.eq_alone`, which splits what is rendered in a run into what is rendered in a run
of its own and the history before.
-/

namespace Stencil

/-- A run with events from before behind what it has noted. -/
def Run.after (past : List Event) (r : Run) : Run := { r with log := r.log ++ past }

section After

variable (past : List Event) (r : Run)

@[simp] theorem Run.failure_after :
    (r.after past).failure = r.failure :=
  rfl

theorem Run.note_after
    (event : Event) :
    (r.after past).note event = (r.note event).after past :=
  rfl

theorem Run.fail_after
    (e : RenderError) :
    (r.after past).fail e = (r.fail e).after past := by
  cases hr : r.failure with
  | none =>
      simp only [Run.fail, Run.failure_after, hr, Run.note_after]
      rfl
  | some e' =>
      rw [Run.fail_of_failure hr, Run.fail_of_failure (by exact hr)]

end After

/-- What is computed in a run without looking at what was noted before. -/
def Oblivious {α : Type} (f : Run → α × Run) : Prop :=
  ∀ (past : List Event) (r : Run), f (r.after past) = ((f r).1, (f r).2.after past)

/-- Rendering in all contexts without looking at what was noted before. -/
def Render.Oblivious (f : Render) : Prop := ∀ s, Stencil.Oblivious (f s)

/-- No partial looks at what was noted before. -/
def Linkage.Oblivious (l : Linkage) : Prop :=
  ∀ name f, l.inclusion name = some f → Render.Oblivious f

theorem Oblivious.unchanged
    {α : Type} (a : α) :
    Oblivious fun r => (a, r) :=
  fun _ _ => rfl

theorem Oblivious.failing
    {α : Type} (a : α) (e : RenderError) :
    Oblivious fun r => (a, r.fail e) := by
  intro past r
  simp only [Run.fail_after]

theorem Oblivious.seq
    {α β : Type} {f : Run → α × Run} {g : α → Run → β × Run}
    (hf : Oblivious f)
    (hg : ∀ a, Oblivious (g a)) :
    Oblivious fun r => g (f r).1 (f r).2 := by
  intro past r
  simp only [hf past r]
  exact hg _ past _

/-! ## Calls -/

namespace Render

theorem oblivious_enter
    {part : Option Render}
    (hpart : ∀ f ∈ part, Render.Oblivious f)
    (inner : Value) (outer : Scope) (metadata : Metadata) :
    Stencil.Oblivious (enter part inner outer metadata) := by
  intro past r
  cases hr : r.failure with
  | some e =>
      rw [enter_of_failure hr, enter_of_failure (by exact hr)]
  | none =>
      cases part with
      | none =>
          rw [enter_missing hr, enter_missing (by exact hr)]
      | some f =>
          rw [enter_present hr, enter_present (by exact hr),
            hpart f rfl (outer.push inner metadata) past r]
          rfl

theorem oblivious_perform
    {body : Render} {inverse : Option Render}
    (hbody : Render.Oblivious body)
    (hinverse : ∀ f ∈ inverse, Render.Oblivious f)
    (action : Action) :
    Stencil.Oblivious (perform body inverse action) := by
  intro past r
  induction action generalizing r with
  | done result =>
      rfl
  | fail e =>
      rfl
  | render part inner outer metadata next ih =>
      rw [perform_render, perform_render, oblivious_enter (forall_mem_chosen hbody hinverse part)
        inner outer metadata past r]
      simp only [Run.note_after]
      exact ih _ _

theorem oblivious_conclude
    (name : Bytes) (result : Except RenderError Datum) :
    Stencil.Oblivious (conclude name result) := by
  intro past r
  unfold conclude
  cases result with
  | error e =>
      exact Oblivious.failing _ _ past r
  | ok d =>
      simp only [Run.failure_after]
      split
      · rfl
      · rfl
      · exact Oblivious.failing _ _ past r

theorem oblivious_block
    {l : Linkage} {name : Bytes} {arguments : Scope → Arguments} {body : Render}
    {inverse : Option Render}
    (hbody : Render.Oblivious body)
    (hinverse : ∀ f ∈ inverse, Render.Oblivious f) :
    Render.Oblivious (block l name arguments body inverse) := by
  intro s past r
  cases hr : r.failure with
  | some e =>
      rw [block_of_failure hr, block_of_failure (by exact hr)]
  | none =>
      cases hhelper : l.helper name with
      | none =>
          rw [block_of_unknown hr hhelper, block_of_unknown (by exact hr) hhelper]
          exact Oblivious.failing _ _ past r
      | some helper =>
          rw [block_of_helper hr hhelper, block_of_helper (by exact hr) hhelper, Run.note_after]
          exact (oblivious_perform hbody hinverse _).seq (oblivious_conclude name) past _

theorem oblivious_inclusion
    {l : Linkage}
    (hl : l.Oblivious)
    (name : Bytes) (base : Value) (parameters : List (Bytes × Value)) :
    Stencil.Oblivious (inclusion l name base parameters) := by
  intro past r
  cases hr : r.failure with
  | some e =>
      rw [inclusion_of_failure hr, inclusion_of_failure (by exact hr)]
  | none =>
      cases hf : l.inclusion name with
      | none =>
          rw [inclusion_of_unknown hr hf, inclusion_of_unknown (by exact hr) hf]
          exact Oblivious.failing _ _ past r
      | some f =>
          cases hdeep : l.bound.any (· ≤ r.active) with
          | true =>
              rw [inclusion_of_deep hr hf hdeep,
                inclusion_of_deep (by exact hr) hf (by exact hdeep)]
              exact Oblivious.failing _ _ past r
          | false =>
              have hdescend : ∀ data, descend name data (r.after past) =
                  (descend name data r).after past := fun _ => rfl
              rw [inclusion_of_partial hr hf hdeep,
                inclusion_of_partial (by exact hr) hf (by exact hdeep)]
              simp only [hdescend, hl name f hf _ past]
              rfl

end Render

/-! ## Programs -/

/-- The building blocks of rendering do not look at what was noted before. -/
def Oblivious.congruence {l : Linkage} (hl : l.Oblivious) : Congruence l l where
  rel f _ := Oblivious f
  unchanged := fun a => .unchanged a
  seq := fun hf hg => hf.seq hg
  block := fun _ _ _ _ _ _ hbody hinverse =>
    Render.oblivious_block hbody (Render.forall_left_of_rel hinverse fun _ _ h => h)
  inclusion := fun name base parameters => Render.oblivious_inclusion hl name base parameters

theorem Registry.oblivious_link
    (reg : Registry) (bound : Option Nat) (fuel : Nat) :
    (reg.link bound fuel).Oblivious := by
  induction fuel with
  | zero =>
      intro name f hf s
      obtain ⟨ops, _, rfl⟩ := Option.map_eq_some_iff.1 hf
      exact .failing _ _
  | succ fuel ih =>
      intro name f hf s
      obtain ⟨ops, _, rfl⟩ := Option.map_eq_some_iff.1 hf
      exact (Oblivious.congruence ih).ops ops s

/-! ## Runs of their own -/

/-- What is rendered in contexts in a run of its own, while some partial calls are active. -/
def Render.alone (f : Render) (active : Nat) (s : Scope) : List Node × Run := f s { active }

/-- What is rendered in a run that has not failed is what is rendered in a run of its own, with the
history of the run behind it. -/
theorem Render.eq_alone
    {f : Render}
    (hf : Render.Oblivious f)
    (s : Scope) {r : Run}
    (hr : r.failure = none) :
    f s r = ((f.alone r.active s).1, (f.alone r.active s).2.after r.log) := by
  have hown : r = Run.after r.log { active := r.active } := by
    cases r
    cases hr
    rfl
  calc f s r
      = f s (Run.after r.log { active := r.active }) := congrArg (f s) hown
    _ = ((f.alone r.active s).1, (f.alone r.active s).2.after r.log) := hf s r.log _

end Stencil
