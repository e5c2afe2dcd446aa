import Stencil.Proofs.Render.Builtins
import Stencil.Proofs.Render.Discipline

/-!
# Properties that runs keep

A property of runs that stays when something is noted, when a failure is recorded and when the
number of active calls changes is kept by rendering altogether.  Which failures are recorded depends
on the helpers, so it may be asked that only some are.

Results: `Registry.preserves_renderAll` for any such property.  It is used for logs, which only grow,
and for failures for depth, which are recorded as they are unless a helper makes them up.
-/

namespace Stencil

/-! ## What runs keep -/

/-- A computation keeps a property of runs. -/
def Preserves (property : Run → Prop) {α : Type} (f : Run → α × Run) : Prop :=
  ∀ r, property r → property (f r).2

/-- A property of runs that does not depend on how many calls are active and that stays when
something is noted or one of some failures is recorded. -/
structure Run.Stable (property : Run → Prop) (allowed : RenderError → Prop) : Prop where
  note : ∀ (event : Event) {r}, property r → property (r.note event)
  fail : ∀ {e}, allowed e → ∀ {r}, property r → property (r.fail e)
  active : ∀ (n : Nat) {r : Run}, property r → property { r with active := n }

/-- The failures that programs record with some helpers are allowed. -/
structure Records (helpers : Bytes → Option Helper) (allowed : RenderError → Prop) : Prop where
  unknownHelper : ∀ name, allowed (.unknownHelper name)
  unknownPartial : ∀ name, allowed (.unknownPartial name)
  recursion : ∀ name depth, allowed (.recursion name depth)
  exhausted : allowed .exhausted
  unsupported : ∀ name type, allowed (.within name (.unsupported type))
  helper : ∀ name helper, helpers name = some helper → ∀ a s hasInverse body inverse r e,
    (Render.perform body inverse (helper a s hasInverse) r).2.failure = none →
      (Render.perform body inverse (helper a s hasInverse) r).1 = .error e →
        allowed (.within name e)

section Preserves

variable {property : Run → Prop} {allowed : RenderError → Prop}
variable (hstable : Run.Stable property allowed)

namespace Render

theorem preserves_enter
    {part : Option Render}
    (hpart : ∀ f ∈ part, ∀ s, Preserves property (f s))
    (inner : Value) (outer : Scope) (metadata : Metadata) :
    Preserves property (enter part inner outer metadata) := by
  intro r hr
  rcases enter_snd_cases part inner outer metadata r with hsame | ⟨f, hf, hrun⟩
  · rwa [hsame]
  · rw [hrun]
    exact hpart f hf _ r hr

include hstable in
theorem preserves_perform
    {body : Render} {inverse : Option Render}
    (hbody : ∀ s, Preserves property (body s))
    (hinverse : ∀ f ∈ inverse, ∀ s, Preserves property (f s))
    (action : Action) :
    Preserves property (perform body inverse action) := by
  induction action with
  | done result =>
      exact fun _ hr => hr
  | fail e =>
      exact fun _ hr => hr
  | render part inner outer metadata next ih =>
      intro r hr
      rw [perform_render]
      have hpart := forall_mem_chosen (P := fun f => ∀ s, Preserves property (f s)) hbody hinverse
      exact ih _ _ (hstable.note _ (preserves_enter (hpart part) inner outer metadata r hr))

include hstable in
theorem preserves_conclude
    {name : Bytes} {result : Except RenderError Datum} {r : Run}
    (hunsupported : ∀ type, allowed (.within name (.unsupported type)))
    (hresult : r.failure = none → ∀ e, result = .error e → allowed (.within name e))
    (hr : property r) :
    property (conclude name result r).2 := by
  cases hfailure : r.failure with
  | some e =>
      rwa [conclude_of_failure hfailure]
  | none =>
      cases result with
      | error e =>
          exact hstable.fail (hresult hfailure e rfl) hr
      | ok d =>
          cases hsplice : d.splice with
          | ok ns =>
              simpa [conclude, hfailure, hsplice] using hr
          | error type =>
              simpa [conclude, hfailure, hsplice] using hstable.fail (hunsupported type) hr

include hstable in
theorem preserves_block
    {l : Linkage}
    (hrecords : Records l.helper allowed)
    (name : Bytes) (arguments : Scope → Arguments) {body : Render} {inverse : Option Render}
    (hbody : ∀ s, Preserves property (body s))
    (hinverse : ∀ f ∈ inverse, ∀ s, Preserves property (f s))
    (s : Scope) :
    Preserves property (block l name arguments body inverse s) := by
  intro r hr
  cases hfailure : r.failure with
  | some e =>
      rwa [block_of_failure hfailure]
  | none =>
      cases hhelper : l.helper name with
      | none =>
          rw [block_of_unknown hfailure hhelper]
          exact hstable.fail (hrecords.unknownHelper name) hr
      | some helper =>
          rw [block_of_helper hfailure hhelper]
          refine preserves_conclude hstable (hrecords.unsupported name) ?_
            (preserves_perform hstable hbody hinverse _ _ (hstable.note _ hr))
          exact fun hgoing e => hrecords.helper name helper hhelper _ _ _ _ _ _ e hgoing

include hstable in
theorem preserves_inclusion
    {l : Linkage}
    (hrecords : Records l.helper allowed)
    (hl : ∀ name f, l.inclusion name = some f → ∀ s, Preserves property (f s))
    (name : Bytes) (base : Value) (parameters : List (Bytes × Value)) :
    Preserves property (inclusion l name base parameters) := by
  intro r hr
  cases hfailure : r.failure with
  | some e =>
      rwa [inclusion_of_failure hfailure]
  | none =>
      cases hf : l.inclusion name with
      | none =>
          rw [inclusion_of_unknown hfailure hf]
          exact hstable.fail (hrecords.unknownPartial name) hr
      | some f =>
          cases hdeep : l.bound.any (· ≤ r.active) with
          | true =>
              rw [inclusion_of_deep hfailure hf hdeep]
              exact hstable.fail (hrecords.recursion name r.active) hr
          | false =>
              rw [inclusion_of_partial hfailure hf hdeep]
              exact hstable.active _ (hl name f hf _ _ (hstable.active _ (hstable.note _ hr)))

end Render

/-- The building blocks of rendering keep what is stable. -/
def Preserves.congruence {l : Linkage}
    (hrecords : Records l.helper allowed)
    (hl : ∀ name f, l.inclusion name = some f → ∀ s, Preserves property (f s)) :
    Congruence l l where
  rel _ f := Preserves property f
  unchanged := fun _ _ hr => hr
  seq := fun hf hg r hr => hg _ _ (hf r hr)
  block := fun name arguments _ _ _ _ hbody hinverse =>
    Render.preserves_block hstable hrecords name arguments hbody
      (Render.forall_right_of_rel hinverse fun _ _ h => h)
  inclusion := Render.preserves_inclusion hstable hrecords hl

include hstable in
/-- Partials keep what is stable, by induction on how deep their calls may nest. -/
theorem Registry.preserves_inclusion_link
    {reg : Registry}
    (hrecords : Records reg.helper allowed)
    (bound : Option Nat) (fuel : Nat) :
    ∀ name f, (reg.link bound fuel).inclusion name = some f → ∀ s, Preserves property (f s) := by
  induction fuel with
  | zero =>
      intro name f hf s r hr
      obtain ⟨ops, _, rfl⟩ := Option.map_eq_some_iff.1 hf
      exact hstable.fail hrecords.exhausted hr
  | succ fuel ih =>
      intro name f hf
      obtain ⟨ops, _, rfl⟩ := Option.map_eq_some_iff.1 hf
      have hlinked := (reg.helper_link bound fuel).symm ▸ hrecords
      exact (Preserves.congruence hstable hlinked ih).ops ops

include hstable in
theorem Registry.preserves_renderAll
    {reg : Registry}
    (hrecords : Records reg.helper allowed)
    (bound : Option Nat) (fuel : Nat) (ops : List Op) (s : Scope) :
    Preserves property (Op.renderAll (reg.link bound fuel) ops s) := by
  have hlinked := (reg.helper_link bound fuel).symm ▸ hrecords
  have hl := Registry.preserves_inclusion_link hstable hrecords bound fuel
  exact (Preserves.congruence hstable hlinked hl).ops ops s

end Preserves

/-! ## Logs only grow -/

/-- A computation that adds to the log of a run. -/
def Grows {α : Type} (f : Run → α × Run) : Prop := ∀ r, r.log <:+ (f r).2.log

theorem Grows.iff_preserves
    {α : Type} {f : Run → α × Run} :
    Grows f ↔ ∀ log, Preserves (fun r => log <:+ r.log) f := by
  constructor
  · intro h log r hr
    exact hr.trans (h r)
  · intro h r
    exact h r.log r (List.suffix_refl _)

theorem Run.suffix_note
    (event : Event) (r : Run) :
    r.log <:+ (r.note event).log :=
  List.suffix_cons event r.log

theorem Run.suffix_fail
    (e : RenderError) (r : Run) :
    r.log <:+ (r.fail e).log := by
  unfold Run.fail
  split
  · exact Run.suffix_note _ r
  · exact List.suffix_refl _

theorem Run.stable_log
    (log : List Event) :
    Run.Stable (fun r => log <:+ r.log) (fun _ => True) where
  note := fun event r hr => hr.trans (Run.suffix_note event r)
  fail := fun _ r hr => hr.trans (Run.suffix_fail _ r)
  active := fun _ _ hr => hr

theorem Records.any
    (helpers : Bytes → Option Helper) :
    Records helpers (fun _ => True) := by
  constructor <;> intros <;> trivial

theorem Grows.unchanged
    {α : Type} (a : α) :
    Grows fun r => (a, r) :=
  fun r => List.suffix_refl r.log

theorem Grows.seq
    {α β : Type} {f : Run → α × Run} {g : α → Run → β × Run}
    (hf : Grows f)
    (hg : ∀ a, Grows (g a)) :
    Grows fun r => g (f r).1 (f r).2 :=
  fun r => (hf r).trans (hg _ _)

namespace Render

theorem grows_perform
    {body : Render} {inverse : Option Render}
    (hbody : ∀ s, Grows (body s))
    (hinverse : ∀ f ∈ inverse, ∀ s, Grows (f s))
    (action : Action) :
    Grows (perform body inverse action) :=
  Grows.iff_preserves.2 fun log => preserves_perform (Run.stable_log log)
    (fun s => Grows.iff_preserves.1 (hbody s) log)
    (fun f hf s => Grows.iff_preserves.1 (hinverse f hf s) log) action

theorem grows_conclude
    (name : Bytes) (result : Except RenderError Datum) :
    Grows (conclude name result) :=
  fun r => preserves_conclude (Run.stable_log r.log) (fun _ => trivial) (fun _ _ _ => trivial)
    (List.suffix_refl r.log)

theorem grows_block
    (l : Linkage) (name : Bytes) (arguments : Scope → Arguments) {body : Render}
    {inverse : Option Render}
    (hbody : ∀ s, Grows (body s))
    (hinverse : ∀ f ∈ inverse, ∀ s, Grows (f s))
    (s : Scope) :
    Grows (block l name arguments body inverse s) :=
  Grows.iff_preserves.2 fun log => preserves_block (Run.stable_log log) (.any l.helper) name
    arguments (fun s => Grows.iff_preserves.1 (hbody s) log)
    (fun f hf s => Grows.iff_preserves.1 (hinverse f hf s) log) s

theorem grows_inclusion
    {l : Linkage}
    (hl : ∀ name f, l.inclusion name = some f → ∀ s, Grows (f s))
    (name : Bytes) (base : Value) (parameters : List (Bytes × Value)) :
    Grows (inclusion l name base parameters) :=
  Grows.iff_preserves.2 fun log => preserves_inclusion (Run.stable_log log) (.any l.helper)
    (fun name f hf s => Grows.iff_preserves.1 (hl name f hf s) log) name base parameters

end Render

theorem Registry.grows_link
    (reg : Registry) (bound : Option Nat) (fuel : Nat) :
    ∀ name f, (reg.link bound fuel).inclusion name = some f → ∀ s, Grows (f s) :=
  fun name f hf s => Grows.iff_preserves.2 fun log =>
    Registry.preserves_inclusion_link (Run.stable_log log) (.any reg.helper) bound fuel name f hf s

/-! ## Failures for depth that helpers make up -/

/-- A helper that does not fail for a depth of its own accord: as long as its sections succeed, it
does not report such a failure. -/
def Action.Sincere : Action → Prop
  | .done _ => True
  | .fail e => ∀ name depth, e.root ≠ .recursion name depth
  | .render _ _ _ _ next => ∀ ns, Action.Sincere (next (.ok ns))

/-- All helpers of a registry are sincere. -/
def Registry.Sincere (reg : Registry) : Prop :=
  ∀ name helper, reg.helper name = some helper →
    ∀ a s hasInverse, (helper a s hasInverse).Sincere

theorem Action.sincere_showSection
    (part : Section) (inner : Value) (s : Scope) :
    (Action.showSection part inner s).Sincere :=
  fun _ => trivial

theorem Action.sincere_showEach
    (s : Scope) (passes : List (Value × Metadata)) (shown : List Node) :
    (Action.showEach s passes shown).Sincere := by
  induction passes generalizing shown with
  | nil =>
      trivial
  | cons pass rest ih =>
      exact fun ns => ih (shown ++ ns)

/-- The helpers that every engine has are sincere. -/
theorem Registry.sincere_of_builtins
    {reg : Registry}
    (h : ∀ name helper, reg.helper name = some helper → (name, helper) ∈ Helper.builtins) :
    reg.Sincere :=
  fun name helper hhelper a s hasInverse =>
    Helper.builtin_cases (motive := Action.Sincere) (h name helper hhelper) a s hasInverse
      (fun part => Action.sincere_showSection part s.data s)
      (Action.sincere_showSection .body (a.nth 0) s)
      (fun _ _ => Action.sincere_showEach s _ [])
      (fun _ _ _ => Action.sincere_showEach s _ []) fun _ => by simp [Action.Sincere, RenderError.root]

/-- A failure that, if it is one for depth, is nothing but that. -/
def RenderError.IsBare (e : RenderError) : Prop :=
  ∀ name depth, e.root = .recursion name depth → e = .recursion name depth

/-- A run that has failed for depth, if it has, has recorded that failure as it is. -/
def Run.Bare (r : Run) : Prop := ∀ e, r.failure = some e → e.IsBare

theorem Run.stable_bare :
    Run.Stable Run.Bare RenderError.IsBare where
  note := fun _ _ hr => hr
  fail := by
    intro e he r hr
    cases hfailure : r.failure with
    | some e₁ =>
        rwa [Run.fail_of_failure hfailure]
    | none =>
        intro e₁ hfailed
        rw [Run.failure_fail hfailure] at hfailed
        cases hfailed
        exact he
  active := fun _ _ hr => hr

namespace Render

/-- A section gives nodes to its helper as long as the run has not failed. -/
theorem enter_ok_of_going
    {part : Option Render} {inner : Value} {outer : Scope} {metadata : Metadata} {r : Run}
    (h : (enter part inner outer metadata r).2.failure = none) :
    ∃ ns, (enter part inner outer metadata r).1 = .ok ns := by
  cases hr : r.failure with
  | some e =>
      rw [enter_of_failure hr, hr] at h
      cases h
  | none =>
      cases part with
      | none =>
          exact ⟨[], by rw [enter_missing hr]⟩
      | some f =>
          rw [enter_present hr] at h ⊢
          simp only at h
          simp [h]

/-- What a sincere helper ends with in a run that has not failed is no failure for a depth. -/
theorem sincere_perform
    {body : Render} {inverse : Option Render} {action : Action}
    (h : action.Sincere)
    {r : Run} {e : RenderError}
    (hgoing : (perform body inverse action r).2.failure = none)
    (hresult : (perform body inverse action r).1 = .error e) :
    ∀ name depth, e.root ≠ .recursion name depth := by
  induction action generalizing r with
  | done result =>
      cases hresult
  | fail e' =>
      cases hresult
      exact h
  | render part inner outer metadata next ih =>
      rw [perform_render] at hgoing hresult
      have hentered := going_of_going_perform hgoing
      rw [Run.failure_note] at hentered
      obtain ⟨ns, hns⟩ := enter_ok_of_going hentered
      rw [hns] at hgoing hresult
      exact ih (.ok ns) (h ns) hgoing hresult

end Render

theorem Registry.Sincere.records
    {reg : Registry}
    (h : reg.Sincere) :
    Records reg.helper RenderError.IsBare where
  unknownHelper := by simp [RenderError.IsBare, RenderError.root]
  unknownPartial := by simp [RenderError.IsBare, RenderError.root]
  recursion := by simp [RenderError.IsBare, RenderError.root]
  exhausted := by simp [RenderError.IsBare, RenderError.root]
  unsupported := by simp [RenderError.IsBare, RenderError.root]
  helper := by
    intro name helper hhelper a s hasInverse body inverse r e hgoing hresult partialName depth hroot
    have hsincere := Render.sincere_perform (h name helper hhelper a s hasInverse) hgoing hresult
    exact absurd hroot (hsincere partialName depth)

end Stencil
