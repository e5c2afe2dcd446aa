import Stencil.Proofs.Render.Congruence

/-!
# The discipline of runs

Whatever the helpers do, a run keeps three rules:

* once it has failed, rendering leaves it as it is;
* rendering ends with as many active partial calls as it began with;
* its log tells of the failure as it was recorded: nothing fails before, and after it only sections
  return to their helpers, each with that failure.

Results: `Disciplined` states the rules for anything that is computed in a run,
`Backend.disciplined_render` says that programs keep them, in both forms.
-/

namespace Stencil

/-! ## Logs -/

/-- The logs, last event first, that tell of a recorded failure or of none. -/
inductive Logged : (failure : Option RenderError) → List Event → Prop
  | going {log : List Event} :
      (∀ e, .failed e ∉ log) →
      Logged none log
  | failed {e : RenderError} {log : List Event} :
      (∀ e', .failed e' ∉ log) →
      Logged (some e) (.failed e :: log)
  | returned {e : RenderError} {part : Section} {log : List Event} :
      Logged (some e) log →
      Logged (some e) (.returned part (.error e) :: log)

/-- The log of a run tells of its failure. -/
def Run.Logged (r : Run) : Prop := Stencil.Logged r.failure r.log

theorem Logged.failed_mem
    {e : RenderError} {log : List Event}
    (h : Logged (some e) log) :
    .failed e ∈ log := by
  generalize hfailure : some e = failure at h
  induction h with
  | going _ =>
      cases hfailure
  | failed _ =>
      cases hfailure
      exact List.mem_cons_self
  | returned _ ih =>
      exact List.mem_cons_of_mem _ (ih hfailure)

/-- A log tells of at most one failure, the one that the run has.  Behind it only sections return,
each with that failure. -/
theorem Logged.failed_unique
    {failure : Option RenderError} {log before after : List Event} {e : RenderError}
    (h : Logged failure log)
    (hlog : log = after ++ .failed e :: before) :
    failure = some e ∧ (∀ x ∈ after, ∃ part, x = .returned part (.error e)) ∧
      ∀ e', .failed e' ∉ before := by
  induction h generalizing after with
  | going hnone =>
      exact absurd (by simp [hlog]) (hnone e)
  | failed hnone =>
      cases after with
      | nil =>
          cases hlog
          exact ⟨rfl, by simp, hnone⟩
      | cons x after =>
          simp only [List.cons_append, List.cons.injEq] at hlog
          exact absurd (by simp [hlog.2]) (hnone e)
  | @returned _ part _ _ ih =>
      cases after with
      | nil =>
          cases hlog
      | cons x after =>
          simp only [List.cons_append, List.cons.injEq] at hlog
          obtain ⟨hx, hrest⟩ := hlog
          obtain ⟨hfailure, hafter, hbefore⟩ := ih hrest
          cases hfailure
          refine ⟨rfl, ?_, hbefore⟩
          intro y hy
          rcases List.mem_cons.1 hy with rfl | hy
          · exact ⟨part, hx.symm⟩
          · exact hafter y hy

theorem Run.Logged.fail
    {r : Run}
    (h : r.Logged)
    (e : RenderError) :
    (r.fail e).Logged := by
  unfold Run.fail
  split
  · next hnone =>
      unfold Run.Logged at h
      rw [hnone] at h
      cases h with
      | going hlog =>
          exact .failed hlog
  · exact h

/-- Anything but a failure may be noted before one is recorded. -/
theorem Run.Logged.note
    {r : Run}
    (h : r.Logged)
    (hnone : r.failure = none)
    {event : Event}
    (hevent : ∀ e, event ≠ .failed e) :
    (r.note event).Logged := by
  unfold Run.Logged at h ⊢
  rw [hnone] at h
  cases h with
  | going hlog =>
      have hfailure : (r.note event).failure = none := hnone
      rw [hfailure]
      refine .going fun e he => ?_
      rcases List.mem_cons.1 he with heq | hmem
      · exact hevent e heq.symm
      · exact hlog e hmem

theorem Run.fail_of_failure
    {r : Run} {e : RenderError}
    (h : r.failure = some e)
    (e' : RenderError) :
    r.fail e' = r := by
  simp [Run.fail, h]

theorem Run.failure_fail
    {r : Run}
    (h : r.failure = none)
    (e : RenderError) :
    (r.fail e).failure = some e := by
  simp [Run.fail, h]

@[simp] theorem Run.active_fail
    (r : Run) (e : RenderError) :
    (r.fail e).active = r.active := by
  unfold Run.fail
  split <;> rfl

@[simp] theorem Run.active_note
    (r : Run) (event : Event) :
    (r.note event).active = r.active :=
  rfl

@[simp] theorem Run.failure_note
    (r : Run) (event : Event) :
    (r.note event).failure = r.failure :=
  rfl

/-! ## The rules -/

/-- What is computed in a run by the rules. -/
structure Disciplined {α : Type} (f : Run → α × Run) : Prop where
  halted : ∀ r e, r.failure = some e → (f r).2 = r
  active : ∀ r, (f r).2.active = r.active
  logged : ∀ r, r.Logged → (f r).2.Logged

/-- Rendering by the rules in all contexts. -/
def Render.Disciplined (f : Render) : Prop := ∀ s, Stencil.Disciplined (f s)

/-- All partials render by the rules. -/
def Linkage.Disciplined (l : Linkage) : Prop :=
  ∀ name f, l.inclusion name = some f → Render.Disciplined f

theorem Disciplined.unchanged
    {α : Type} (a : α) :
    Disciplined fun r => (a, r) where
  halted := fun _ _ _ => rfl
  active := fun _ => rfl
  logged := fun _ h => h

/-- What leaves failed runs as they are has to keep the rules in runs that have not failed. -/
theorem Disciplined.of_going
    {α : Type} {f : Run → α × Run}
    (halted : ∀ r e, r.failure = some e → (f r).2 = r)
    (going : ∀ r, r.failure = none →
      (f r).2.active = r.active ∧ (r.Logged → (f r).2.Logged)) :
    Disciplined f := by
  refine ⟨halted, fun r => ?_, fun r h => ?_⟩
  · cases hr : r.failure with
    | none =>
        exact (going r hr).1
    | some e =>
        rw [halted r e hr]
  · cases hr : r.failure with
    | none =>
        exact (going r hr).2 h
    | some e =>
        rw [halted r e hr]
        exact h

/-- One computation after the other keeps the rules. -/
theorem Disciplined.seq
    {α β : Type} {f : Run → α × Run} {g : α → Run → β × Run}
    (hf : Disciplined f)
    (hg : ∀ a, Disciplined (g a)) :
    Disciplined fun r => g (f r).1 (f r).2 where
  halted := by
    intro r e h
    have hr := hf.halted r e h
    rw [hr]
    exact (hg _).halted r e h
  active := by
    intro r
    rw [(hg _).active, hf.active]
  logged := by
    intro r h
    exact (hg _).logged _ (hf.logged r h)

/-! ## Calls -/

namespace Render

theorem enter_of_failure
    {part : Option Render} {inner : Value} {outer : Scope} {metadata : Metadata} {r : Run}
    {e : RenderError}
    (h : r.failure = some e) :
    enter part inner outer metadata r = (.error e, r) := by
  simp [enter, h]

theorem enter_missing
    {inner : Value} {outer : Scope} {metadata : Metadata} {r : Run}
    (h : r.failure = none) :
    enter none inner outer metadata r = (.ok [], r) := by
  simp [enter, h]

theorem enter_present
    {f : Render} {inner : Value} {outer : Scope} {metadata : Metadata} {r : Run}
    (h : r.failure = none) :
    enter (some f) inner outer metadata r =
      (match (f (outer.push inner metadata) r).2.failure with
        | some e => .error e
        | none => .ok (f (outer.push inner metadata) r).1,
       (f (outer.push inner metadata) r).2) := by
  simp only [enter, h]
  split <;> simp_all

/-- A helper gets back the failure of the run whenever there is one. -/
theorem enter_fst_of_failure
    {part : Option Render} {inner : Value} {outer : Scope} {metadata : Metadata} {r : Run}
    {e : RenderError}
    (h : (enter part inner outer metadata r).2.failure = some e) :
    (enter part inner outer metadata r).1 = .error e := by
  cases hfailure : r.failure with
  | some e' =>
      rw [enter_of_failure hfailure] at h ⊢
      rw [hfailure] at h
      cases h
      rfl
  | none =>
      cases part with
      | none =>
          rw [enter_missing hfailure, hfailure] at h
          cases h
      | some f =>
          rw [enter_present hfailure] at h ⊢
          simp only at h
          simp [h]

/-- Entering a section leaves the run as it is or as the section leaves it. -/
theorem enter_snd_cases
    (part : Option Render) (inner : Value) (outer : Scope) (metadata : Metadata) (r : Run) :
    (enter part inner outer metadata r).2 = r ∨
      ∃ f ∈ part, (enter part inner outer metadata r).2 = (f (outer.push inner metadata) r).2 := by
  cases hfailure : r.failure with
  | some e =>
      rw [enter_of_failure hfailure]
      exact Or.inl rfl
  | none =>
      cases part with
      | none =>
          rw [enter_missing hfailure]
          exact Or.inl rfl
      | some f =>
          rw [enter_present hfailure]
          exact Or.inr ⟨f, rfl, rfl⟩

theorem active_enter
    {part : Option Render}
    (hpart : ∀ f ∈ part, Render.Disciplined f)
    (inner : Value) (outer : Scope) (metadata : Metadata) (r : Run) :
    (enter part inner outer metadata r).2.active = r.active := by
  rcases enter_snd_cases part inner outer metadata r with hsame | ⟨f, hf, hrun⟩
  · rw [hsame]
  · rw [hrun, (hpart f hf _).active]

theorem logged_enter
    {part : Option Render}
    (hpart : ∀ f ∈ part, Render.Disciplined f)
    (inner : Value) (outer : Scope) (metadata : Metadata) {r : Run}
    (h : r.Logged) :
    (enter part inner outer metadata r).2.Logged := by
  rcases enter_snd_cases part inner outer metadata r with hsame | ⟨f, hf, hrun⟩
  · rw [hsame]
    exact h
  · rw [hrun]
    exact (hpart f hf _).logged r h

/-- A section returns to its helper, and the return is noted. -/
theorem logged_note_returned
    {part : Option Render}
    (hpart : ∀ f ∈ part, Render.Disciplined f)
    (which : Section) (inner : Value) (outer : Scope) (metadata : Metadata) {r : Run}
    (h : r.Logged) :
    ((enter part inner outer metadata r).2.note
      (.returned which (enter part inner outer metadata r).1)).Logged := by
  have hlogged := logged_enter hpart inner outer metadata h
  cases hfailure : (enter part inner outer metadata r).2.failure with
  | none =>
      exact hlogged.note hfailure (by simp)
  | some e =>
      rw [enter_fst_of_failure hfailure]
      unfold Run.Logged at hlogged ⊢
      rw [Run.failure_note, hfailure]
      rw [hfailure] at hlogged
      exact .returned hlogged

/-- The section that a helper asks for. -/
def chosen (body : Render) (inverse : Option Render) : Section → Option Render
  | .body => some body
  | .inverse => inverse

theorem forall_mem_chosen
    {P : Render → Prop} {body : Render} {inverse : Option Render}
    (hbody : P body)
    (hinverse : ∀ f ∈ inverse, P f)
    (part : Section) :
    ∀ f ∈ chosen body inverse part, P f := by
  cases part with
  | body =>
      rintro f ⟨⟩
      exact hbody
  | inverse =>
      exact hinverse

theorem rel_chosen
    {R : Render → Render → Prop} {body body' : Render} {inverse inverse' : Option Render}
    (hbody : R body body')
    (hinverse : Option.Rel R inverse inverse')
    (part : Section) :
    Option.Rel R (chosen body inverse part) (chosen body' inverse' part) := by
  cases part with
  | body =>
      exact .some hbody
  | inverse =>
      exact hinverse

theorem perform_render
    (body : Render) (inverse : Option Render) (part : Section) (inner : Value) (outer : Scope)
    (metadata : Metadata) (next : Except RenderError (List Node) → Action) (r : Run) :
    perform body inverse (.render part inner outer metadata next) r =
      perform body inverse (next (enter (chosen body inverse part) inner outer metadata r).1)
        ((enter (chosen body inverse part) inner outer metadata r).2.note
          (.returned part (enter (chosen body inverse part) inner outer metadata r).1)) := by
  cases part <;> rfl

section Perform

variable {body : Render} {inverse : Option Render}
variable (hbody : Render.Disciplined body) (hinverse : ∀ f ∈ inverse, Render.Disciplined f)

include hbody hinverse in
theorem active_perform
    (action : Action) (r : Run) :
    (perform body inverse action r).2.active = r.active := by
  induction action generalizing r with
  | done result =>
      rfl
  | fail e =>
      rfl
  | render part inner outer metadata next ih =>
      rw [perform_render, ih, Run.active_note]
      exact active_enter (forall_mem_chosen hbody hinverse part) inner outer metadata r

include hbody hinverse in
theorem logged_perform
    (action : Action) {r : Run}
    (h : r.Logged) :
    (perform body inverse action r).2.Logged := by
  induction action generalizing r with
  | done result =>
      exact h
  | fail e =>
      exact h
  | render part inner outer metadata next ih =>
      rw [perform_render]
      exact ih _ (logged_note_returned (forall_mem_chosen hbody hinverse part) part inner outer
        metadata h)

end Perform

/-- What a helper still does after a failure does not change the failure. -/
theorem failure_perform_of_failure
    (body : Render) (inverse : Option Render) (action : Action) {r : Run} {e : RenderError}
    (h : r.failure = some e) :
    (perform body inverse action r).2.failure = some e := by
  induction action generalizing r with
  | done result =>
      exact h
  | fail e' =>
      exact h
  | render part inner outer metadata next ih =>
      rw [perform_render, enter_of_failure h]
      exact ih _ h

/-- What a helper does ends without a failure only if what it did so far has. -/
theorem going_of_going_perform
    {body : Render} {inverse : Option Render} {action : Action} {r : Run}
    (h : (perform body inverse action r).2.failure = none) :
    r.failure = none := by
  cases hr : r.failure with
  | none =>
      rfl
  | some e =>
      rw [failure_perform_of_failure body inverse action hr] at h
      cases h

/-- What a block does with the result of its helper. -/
def conclude (name : Bytes) (result : Except RenderError Datum) (r : Run) : List Node × Run :=
  match result with
  | .error e => ([], r.fail (.within name e))
  | .ok d =>
    match r.failure, d.splice with
    | some _, _ => ([], r)
    | none, .ok ns => (ns, r)
    | none, .error type => ([], r.fail (.within name (.unsupported type)))

section Block

variable {l : Linkage} {name : Bytes} {arguments : Scope → Arguments} {body : Render}
variable {inverse : Option Render} {s : Scope} {r : Run}

theorem block_of_failure
    {e : RenderError}
    (hr : r.failure = some e) :
    block l name arguments body inverse s r = ([], r) := by
  simp [block, hr]

theorem block_of_unknown
    (hr : r.failure = none)
    (hhelper : l.helper name = none) :
    block l name arguments body inverse s r = ([], r.fail (.unknownHelper name)) := by
  simp [block, hr, hhelper]

theorem block_of_helper
    {helper : Helper}
    (hr : r.failure = none)
    (hhelper : l.helper name = some helper) :
    block l name arguments body inverse s r =
      conclude name
        (perform body inverse (helper (arguments s) s inverse.isSome)
          (r.note (.helper name (arguments s) s))).1
        (perform body inverse (helper (arguments s) s inverse.isSome)
          (r.note (.helper name (arguments s) s))).2 := by
  simp only [block, hr, hhelper]
  rfl

end Block

theorem conclude_of_failure
    {name : Bytes} {result : Except RenderError Datum} {r : Run} {e : RenderError}
    (h : r.failure = some e) :
    conclude name result r = ([], r) := by
  cases result with
  | error e' =>
      simp [conclude, Run.fail_of_failure h]
  | ok d =>
      simp [conclude, h]

/-- A block leaves the run as its helper does, or records one more failure. -/
theorem conclude_snd_cases
    (name : Bytes) (result : Except RenderError Datum) (r : Run) :
    (conclude name result r).2 = r ∨ ∃ e, (conclude name result r).2 = r.fail e := by
  unfold conclude
  split
  · exact Or.inr ⟨_, rfl⟩
  · split
    · exact Or.inl rfl
    · exact Or.inl rfl
    · exact Or.inr ⟨_, rfl⟩

theorem disciplined_block
    {l : Linkage} {name : Bytes} {arguments : Scope → Arguments} {body : Render}
    {inverse : Option Render}
    (hbody : Render.Disciplined body)
    (hinverse : ∀ f ∈ inverse, Render.Disciplined f) :
    Render.Disciplined (block l name arguments body inverse) := by
  intro s
  refine .of_going (fun r e hr => by rw [block_of_failure hr]) fun r hr => ?_
  cases hhelper : l.helper name with
  | none =>
      rw [block_of_unknown hr hhelper]
      exact ⟨Run.active_fail r _, fun h => h.fail _⟩
  | some helper =>
      rw [block_of_helper hr hhelper]
      have hactive := active_perform hbody hinverse (helper (arguments s) s inverse.isSome)
        (r.note (.helper name (arguments s) s))
      have hnoted : r.Logged → (r.note (.helper name (arguments s) s)).Logged := fun h =>
        h.note hr (by simp)
      have hlogged := fun h => logged_perform hbody hinverse
        (helper (arguments s) s inverse.isSome) (hnoted h)
      rcases conclude_snd_cases name _ _ with hsame | ⟨e, hfail⟩
      · rw [hsame]
        exact ⟨hactive, hlogged⟩
      · rw [hfail, Run.active_fail]
        exact ⟨hactive, fun h => (hlogged h).fail e⟩

/-- The run in which a partial is rendered. -/
def descend (name : Bytes) (data : Value) (r : Run) : Run :=
  { r.note (.inclusion name data r.active) with active := r.active + 1 }

section Inclusion

variable {l : Linkage} {name : Bytes} {base : Value} {parameters : List (Bytes × Value)} {r : Run}

theorem inclusion_of_failure
    {e : RenderError}
    (hr : r.failure = some e) :
    inclusion l name base parameters r = ([], r) := by
  simp [inclusion, hr]

theorem inclusion_of_unknown
    (hr : r.failure = none)
    (hf : l.inclusion name = none) :
    inclusion l name base parameters r = ([], r.fail (.unknownPartial name)) := by
  simp [inclusion, hr, hf]

theorem inclusion_of_deep
    {f : Render}
    (hr : r.failure = none)
    (hf : l.inclusion name = some f)
    (hdeep : l.bound.any (· ≤ r.active) = true) :
    inclusion l name base parameters r = ([], r.fail (.recursion name r.active)) := by
  simp [inclusion, hr, hf, hdeep]

theorem inclusion_of_partial
    {f : Render}
    (hr : r.failure = none)
    (hf : l.inclusion name = some f)
    (hdeep : l.bound.any (· ≤ r.active) = false) :
    inclusion l name base parameters r =
      (let data := includedData base parameters
       let result := f (Scope.root data) (descend name data r)
       (result.1, { result.2 with active := result.2.active - 1 })) := by
  simp only [inclusion, hr, hf, hdeep]
  rfl

end Inclusion

theorem disciplined_inclusion
    {l : Linkage}
    (hl : l.Disciplined)
    (name : Bytes) (base : Value) (parameters : List (Bytes × Value)) :
    Stencil.Disciplined (inclusion l name base parameters) := by
  refine .of_going (fun r e hr => by rw [inclusion_of_failure hr]) fun r hr => ?_
  cases hf : l.inclusion name with
  | none =>
      rw [inclusion_of_unknown hr hf]
      exact ⟨Run.active_fail r _, fun h => h.fail _⟩
  | some f =>
      cases hdeep : l.bound.any (· ≤ r.active) with
      | true =>
          rw [inclusion_of_deep hr hf hdeep]
          exact ⟨Run.active_fail r _, fun h => h.fail _⟩
      | false =>
          rw [inclusion_of_partial hr hf hdeep]
          have hpartial := hl name f hf (Scope.root (includedData base parameters))
          refine ⟨?_, fun h => hpartial.logged _ (h.note hr (by simp))⟩
          dsimp only
          rw [hpartial.active]
          rfl

end Render

/-! ## Programs -/

/-- The building blocks of rendering keep the rules. -/
def Disciplined.congruence {l : Linkage} (hl : l.Disciplined) : Congruence l l where
  rel f _ := Disciplined f
  unchanged := fun a => .unchanged a
  seq := fun hf hg => hf.seq hg
  block := fun _ _ _ _ _ _ hbody hinverse =>
    Render.disciplined_block hbody (Render.forall_left_of_rel hinverse fun _ _ h => h)
  inclusion := fun name base parameters => Render.disciplined_inclusion hl name base parameters

/-- Programs keep the rules when their partials do. -/
theorem Backend.disciplined_render
    {l : Linkage}
    (hl : l.Disciplined)
    (form : Backend) (ops : List Op) :
    Render.Disciplined (form.render l ops) :=
  fun s => (Disciplined.congruence hl).backend form ops s

/-- Registered partials keep the rules, by induction on how deep their calls may nest. -/
theorem Registry.disciplined_linkAs
    (reg : Registry) (forms : Bytes → Backend) (bound : Option Nat) (fuel : Nat) :
    (reg.linkAs forms bound fuel).Disciplined := by
  induction fuel with
  | zero =>
      intro name f hf s
      obtain ⟨ops, _, rfl⟩ := Option.map_eq_some_iff.1 hf
      refine ⟨?_, ?_, ?_⟩
      · intro r e h
        exact Run.fail_of_failure h _
      · intro r
        exact Run.active_fail r _
      · intro r h
        exact h.fail _
  | succ fuel ih =>
      intro name f hf
      obtain ⟨ops, _, rfl⟩ := Option.map_eq_some_iff.1 hf
      exact (forms name).disciplined_render ih ops

end Stencil
