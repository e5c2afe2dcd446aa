import Stencil.Proofs.Render.Preservation

/-!
# The bound on nested calls only cuts off

Two runs of a program, one with a bound on how many calls of partials may be active and one with a
larger bound or with none.

Algorithm: the two runs do the same, event by event, until one of them calls a partial while as many
calls are active as the smaller bound allows.  There the run with the smaller bound fails, and stays
failed, and what the other run does behind that does not matter.  The runs are followed at one depth
of nesting; a call of a partial goes one level deeper, and at the depth of the bound there is
nothing left to compare.

Results: `bound_only_cuts_off`.
-/

namespace Stencil

/-! ## What decides a run -/

/-- Whether an event is a failure or a call of a partial at a depth. -/
def Event.decides (limit : Nat) : Event → Bool
  | .inclusion _ _ depth => depth = limit
  | .failed _ => true
  | .helper .. | .returned .. => false

/-- The first failure of a run or call at a depth, whichever is first. -/
def Run.turn (limit : Nat) (r : Run) : Option Event := r.log.reverse.find? (Event.decides limit)

theorem Run.turn_note
    (limit : Nat) (event : Event) (r : Run) :
    (r.note event).turn limit =
      (r.turn limit).or (if event.decides limit then some event else none) := by
  simp [Run.turn, Run.note, List.find?_append, List.find?_singleton]

/-- What decides a run stays decided. -/
theorem Run.turn_of_suffix
    {limit : Nat} {r q : Run} {event : Event}
    (h : r.log <:+ q.log)
    (hturn : r.turn limit = some event) :
    q.turn limit = some event := by
  obtain ⟨added, hadded⟩ := h
  unfold Run.turn at hturn ⊢
  rw [← hadded, List.reverse_append, List.find?_append, hturn, Option.some_or]

/-- A run in which nothing was called at a depth before it failed, if it has, and which has not
failed for its depth. -/
structure Run.Clear (limit : Nat) (r : Run) : Prop where
  failure : ∀ name depth, r.failure ≠ some (.recursion name depth)
  turn : r.turn limit = r.failure.map .failed

theorem Run.Clear.note
    {limit : Nat} {r : Run} {event : Event}
    (h : r.Clear limit)
    (hevent : event.decides limit = false) :
    (r.note event).Clear limit := by
  refine ⟨h.failure, ?_⟩
  rw [Run.turn_note, hevent, h.turn]
  simp

theorem Run.Clear.fail
    {limit : Nat} {r : Run} {e : RenderError}
    (h : r.Clear limit)
    (he : ∀ name depth, e ≠ .recursion name depth) :
    (r.fail e).Clear limit := by
  cases hr : r.failure with
  | some e₁ =>
      rwa [Run.fail_of_failure hr]
  | none =>
      refine ⟨fun name depth hfailure => ?_, ?_⟩
      · rw [Run.failure_fail hr] at hfailure
        exact he name depth (Option.some.inj hfailure)
      · have hturn : (r.fail e).turn limit = (r.note (.failed e)).turn limit := by
          simp only [Run.fail, hr, Run.turn]
        rw [hturn, Run.turn_note, h.turn, hr, Run.failure_fail hr]
        rfl

theorem Run.clear_start
    (limit : Nat) :
    ({} : Run).Clear limit where
  failure := by simp
  turn := rfl

/-! ## Two runs until one is cut off -/

/-- Two results that are the same in a run that is clear, or of which the first is cut off where the
second makes the call that the bound refuses. -/
inductive Cut (limit : Nat) {α : Type} (x x' : α × Run) : Prop
  | same :
      x = x' →
      x.2.Clear limit →
      Cut limit x x'
  | off {name : Bytes} {data : Value} :
      x.2.failure = some (.recursion name limit) →
      x'.2.turn limit = some (.inclusion name data limit) →
      Cut limit x x'

/-- Two computations that differ, when they begin at a depth, only by one being cut off. -/
structure CutsOff (limit depth : Nat) {α : Type} (f f' : Run → α × Run) : Prop where
  left : Disciplined f
  right : Grows f'
  cut : ∀ r, r.active = depth → r.Clear limit → Cut limit (f r) (f' r)

namespace CutsOff

variable {limit depth : Nat}

theorem unchanged
    {α : Type} (a : α) :
    CutsOff limit depth (fun r => (a, r)) (fun r => (a, r)) :=
  ⟨.unchanged a, .unchanged a, fun _ _ hclear => .same rfl hclear⟩

theorem seq
    {α β : Type} {f f' : Run → α × Run} {g g' : α → Run → β × Run}
    (hf : CutsOff limit depth f f')
    (hg : ∀ a, CutsOff limit depth (g a) (g' a)) :
    CutsOff limit depth (fun r => g (f r).1 (f r).2) (fun r => g' (f' r).1 (f' r).2) where
  left := hf.left.seq fun a => (hg a).left
  right := hf.right.seq fun a => (hg a).right
  cut := by
    intro r hactive hclear
    cases hf.cut r hactive hclear with
    | same hsame hclear₁ =>
        rw [← hsame]
        exact (hg _).cut _ ((hf.left.active r).trans hactive) hclear₁
    | off hfailure hturn =>
        -- The run that is cut off stays as it is, and the other one has made its call.
        refine .off ?_ (Run.turn_of_suffix ((hg _).right _) hturn)
        rw [(hg _).left.halted _ _ hfailure]
        exact hfailure

end CutsOff

/-- Cutting off in all contexts. -/
def Render.CutsOff (limit depth : Nat) (f f' : Render) : Prop :=
  ∀ s, Stencil.CutsOff limit depth (f s) (f' s)

namespace Render

variable {limit depth : Nat}

theorem cut_enter
    {part part' : Option Render}
    (hpart : Option.Rel (Render.CutsOff limit depth) part part')
    (inner : Value) (outer : Scope) (metadata : Metadata)
    {r : Run}
    (hactive : r.active = depth)
    (hclear : r.Clear limit) :
    Cut limit (enter part inner outer metadata r) (enter part' inner outer metadata r) := by
  cases hr : r.failure with
  | some e =>
      rw [enter_of_failure hr, enter_of_failure hr]
      exact .same rfl hclear
  | none =>
      cases hpart with
      | none =>
          exact .same rfl (by rwa [enter_missing hr])
      | some hf =>
          rw [enter_present hr, enter_present hr]
          cases (hf (outer.push inner metadata)).cut r hactive hclear with
          | same hsame hclear₁ =>
              rw [← hsame]
              exact .same rfl hclear₁
          | off hfailure hturn =>
              exact .off hfailure hturn

theorem disciplined_of_cutsOff
    {part part' : Option Render}
    (h : Option.Rel (Render.CutsOff limit depth) part part') :
    ∀ f ∈ part, Render.Disciplined f :=
  forall_left_of_rel h fun _ _ hcuts s => (hcuts s).left

theorem grows_of_cutsOff
    {part part' : Option Render}
    (h : Option.Rel (Render.CutsOff limit depth) part part') :
    ∀ f ∈ part', ∀ s, Grows (f s) :=
  forall_right_of_rel h fun _ _ hcuts s => (hcuts s).right

/-- A helper goes on with the failure when a section is cut off, but the run stays failed. -/
theorem cut_perform
    {body body' : Render} {inverse inverse' : Option Render}
    (hbody : Render.CutsOff limit depth body body')
    (hinverse : Option.Rel (Render.CutsOff limit depth) inverse inverse')
    (action : Action)
    {r : Run}
    (hactive : r.active = depth)
    (hclear : r.Clear limit) :
    Cut limit (perform body inverse action r) (perform body' inverse' action r) := by
  induction action generalizing r with
  | done result =>
      exact .same rfl hclear
  | fail e =>
      exact .same rfl hclear
  | render part inner outer metadata next ih =>
      have hpart := rel_chosen hbody hinverse part
      rw [perform_render, perform_render]
      cases cut_enter hpart inner outer metadata hactive hclear with
      | same hsame hclear₁ =>
          rw [← hsame]
          refine ih _ ?_ (hclear₁.note rfl)
          rw [Run.active_note, active_enter (disciplined_of_cutsOff hpart), hactive]
      | off hfailure hturn =>
          have hgrows := grows_perform (fun s => (hbody s).right) (grows_of_cutsOff hinverse)
          exact .off (failure_perform_of_failure _ _ _ hfailure)
            (Run.turn_of_suffix ((Run.suffix_note _ _).trans (hgrows _ _)) hturn)

theorem clear_conclude
    (name : Bytes) (result : Except RenderError Datum) {r : Run}
    (h : r.Clear limit) :
    (conclude name result r).2.Clear limit := by
  unfold conclude
  split
  · exact h.fail (by simp)
  · split
    · exact h
    · exact h
    · exact h.fail (by simp)

theorem cutsOff_block
    {l l' : Linkage}
    (hhelpers : l.helper = l'.helper)
    (name : Bytes) (arguments : Scope → Arguments) {body body' : Render}
    {inverse inverse' : Option Render}
    (hbody : Render.CutsOff limit depth body body')
    (hinverse : Option.Rel (Render.CutsOff limit depth) inverse inverse') :
    Render.CutsOff limit depth (block l name arguments body inverse)
      (block l' name arguments body' inverse') := by
  have hisSome : inverse.isSome = inverse'.isSome := by
    cases hinverse <;> rfl
  intro s
  refine ⟨disciplined_block (fun s => (hbody s).left) (disciplined_of_cutsOff hinverse) s,
    grows_block l' name arguments (fun s => (hbody s).right) (grows_of_cutsOff hinverse) s,
    fun r hactive hclear => ?_⟩
  cases hr : r.failure with
  | some e =>
      rw [block_of_failure hr, block_of_failure hr]
      exact .same rfl hclear
  | none =>
      cases hhelper : l.helper name with
      | none =>
          rw [block_of_unknown hr hhelper, block_of_unknown hr (hhelpers ▸ hhelper)]
          exact .same rfl (hclear.fail (by simp))
      | some helper =>
          rw [block_of_helper hr hhelper, block_of_helper hr (hhelpers ▸ hhelper), ← hisSome]
          have hactive₁ : (r.note (.helper name (arguments s) s)).active = depth := hactive
          cases cut_perform hbody hinverse (helper (arguments s) s inverse.isSome) hactive₁
            (hclear.note rfl) with
          | same hsame hclear₁ =>
              rw [← hsame]
              exact .same rfl (clear_conclude name _ hclear₁)
          | off hfailure hturn =>
              refine .off ?_ (Run.turn_of_suffix (grows_conclude name _ _) hturn)
              rw [conclude_of_failure hfailure]
              exact hfailure

end Render

/-- Two linkages of which the first has a bound, the second a larger one or none, and whose partials
differ one level deeper only by being cut off. -/
structure Linkage.CutsOff (limit depth : Nat) (l l' : Linkage) : Prop where
  helper : l.helper = l'.helper
  bound : l.bound = some limit
  larger : ∀ m ∈ l'.bound, limit < m
  shallow : depth ≤ limit
  disciplined : l.Disciplined
  grows : ∀ name f, l'.inclusion name = some f → ∀ s, Grows (f s)
  inclusion : ∀ name, Option.Rel
    (fun f f' => depth < limit → Render.CutsOff limit (depth + 1) f f')
    (l.inclusion name) (l'.inclusion name)

namespace Render

variable {limit depth : Nat} {l l' : Linkage}

theorem any_bound_of_larger
    (hlarger : ∀ m ∈ l'.bound, limit < m)
    {active : Nat}
    (hactive : active ≤ limit) :
    l'.bound.any (· ≤ active) = false := by
  cases hbound : l'.bound with
  | none =>
      rfl
  | some m =>
      have hm := hlarger m hbound
      simp only [Option.any_some, decide_eq_false_iff_not]
      omega

/-- The run in which a partial is rendered is clear unless the call is at the depth of the bound. -/
theorem clear_descend
    {r : Run}
    (hclear : r.Clear limit)
    (hshallow : r.active < limit)
    (name : Bytes) (data : Value) :
    (descend name data r).Clear limit := by
  have hnoted : (r.note (.inclusion name data r.active)).Clear limit := by
    refine hclear.note ?_
    simp only [Event.decides, decide_eq_false_iff_not]
    omega
  exact ⟨hnoted.failure, hnoted.turn⟩

theorem turn_descend
    {r : Run}
    (hclear : r.Clear limit)
    (hr : r.failure = none)
    (hdeep : r.active = limit)
    (name : Bytes) (data : Value) :
    (descend name data r).turn limit = some (.inclusion name data limit) := by
  have hnoted := Run.turn_note limit (.inclusion name data r.active) r
  rw [hclear.turn, hr, hdeep] at hnoted
  simpa [descend, Run.turn, Run.note, Event.decides, hdeep] using hnoted

theorem cutsOff_inclusion
    (hl : l.CutsOff limit depth l')
    (name : Bytes) (base : Value) (parameters : List (Bytes × Value)) :
    Stencil.CutsOff limit depth (inclusion l name base parameters)
      (inclusion l' name base parameters) := by
  have hgrows := grows_inclusion hl.grows name base parameters
  refine ⟨disciplined_inclusion hl.disciplined name base parameters, hgrows,
    fun r hactive hclear => ?_⟩
  cases hr : r.failure with
  | some e =>
      rw [inclusion_of_failure hr, inclusion_of_failure hr]
      exact .same rfl hclear
  | none =>
      have hname := hl.inclusion name
      generalize hf : l.inclusion name = found at hname
      generalize hf' : l'.inclusion name = found' at hname
      cases hname with
      | none =>
          rw [inclusion_of_unknown hr hf, inclusion_of_unknown hr hf']
          exact .same rfl (hclear.fail (by simp))
      | @some f f' hpartial =>
          have hopen' := any_bound_of_larger hl.larger (hactive ▸ hl.shallow)
          rw [inclusion_of_partial hr hf' hopen']
          rcases Nat.lt_or_eq_of_le hl.shallow with hless | hequal
          · have hopen : l.bound.any (· ≤ r.active) = false := by
              rw [hl.bound, Option.any_some, decide_eq_false_iff_not]
              omega
            rw [inclusion_of_partial hr hf hopen]
            have hclear₁ := clear_descend hclear (by omega) name (includedData base parameters)
            cases (hpartial hless (Scope.root (includedData base parameters))).cut
              (descend name (includedData base parameters) r) (by rw [descend, hactive])
              hclear₁ with
            | same hsame hclear₂ =>
                exact .same (by simp only [hsame]) ⟨hclear₂.failure, hclear₂.turn⟩
            | off hfailure hturn =>
                exact .off hfailure hturn
          · have hdeep : l.bound.any (· ≤ r.active) = true := by
              rw [hl.bound, Option.any_some, decide_eq_true_eq]
              omega
            have hlimit : r.active = limit := by omega
            rw [inclusion_of_deep hr hf hdeep]
            refine .off ?_ (Run.turn_of_suffix (hl.grows name f' hf' _ _)
              (turn_descend hclear hr hlimit name (includedData base parameters)))
            rw [Run.failure_fail hr, hlimit]

end Render

/-- The building blocks of rendering cut off or do the same. -/
def CutsOff.congruence {limit depth : Nat} {l l' : Linkage} (hl : l.CutsOff limit depth l') :
    Congruence l l' where
  rel f f' := CutsOff limit depth f f'
  unchanged := fun a => .unchanged a
  seq := fun hf hg => hf.seq hg
  block := fun name arguments _ _ _ _ hbody hinverse =>
    Render.cutsOff_block hl.helper name arguments hbody hinverse
  inclusion := Render.cutsOff_inclusion hl

namespace Registry

variable {limit : Nat} {bound : Option Nat}

/-- Linkages of a registry differ by being cut off when their partials do. -/
theorem cutsOff_link_of_inclusion
    (reg : Registry)
    (hlarger : ∀ m ∈ bound, limit < m)
    {depth fuel fuel' : Nat}
    (hshallow : depth ≤ limit)
    (hpartial : ∀ name ops, reg.partialOps name = some ops → depth < limit →
      ∃ rest rest', fuel = rest + 1 ∧ fuel' = rest' + 1 ∧
        Render.CutsOff limit (depth + 1) (Op.renderAll (reg.link (some limit) rest) ops)
          (Op.renderAll (reg.link bound rest') ops)) :
    (reg.link (some limit) fuel).CutsOff limit depth (reg.link bound fuel') := by
  have hdisciplined := reg.disciplined_linkAs (fun _ => .steps) (some limit) fuel
  rw [linkAs_steps] at hdisciplined
  refine ⟨?_, reg.bound_link _ _, ?_, hshallow, hdisciplined, reg.grows_link bound fuel', ?_⟩
  · rw [helper_link, helper_link]
  · rw [bound_link]
    exact hlarger
  · intro name
    cases hops : reg.partialOps name with
    | none =>
        rw [inclusion_link_none _ _ hops, inclusion_link_none _ _ hops]
        exact .none
    | some ops =>
        obtain ⟨f, hf⟩ := inclusion_link_some (some limit) fuel hops
        obtain ⟨f', hf'⟩ := inclusion_link_some bound fuel' hops
        rw [hf, hf']
        refine .some fun hless => ?_
        obtain ⟨rest, rest', rfl, rfl, hcuts⟩ := hpartial name ops hops hless
        rw [inclusion_link_succ _ _ hops, Option.some.injEq] at hf hf'
        rw [← hf, ← hf']
        exact hcuts

/-- A registry with a bound cuts off what it does with a larger one or with none, at every depth up
to the bound and as long as there is fuel up to it. -/
theorem cutsOff_link
    (reg : Registry)
    (hlarger : ∀ m ∈ bound, limit < m)
    {depth fuel fuel' : Nat}
    (hshallow : depth ≤ limit)
    (hfuel : limit ≤ fuel + depth)
    (hfuel' : limit ≤ fuel' + depth) :
    (reg.link (some limit) fuel).CutsOff limit depth (reg.link bound fuel') := by
  induction fuel generalizing depth fuel' with
  | zero =>
      refine reg.cutsOff_link_of_inclusion hlarger hshallow fun name ops hops hless => ?_
      omega
  | succ fuel ih =>
      refine reg.cutsOff_link_of_inclusion hlarger hshallow fun name ops hops hless => ?_
      have hdeeper : (reg.link (some limit) fuel).CutsOff limit (depth + 1)
          (reg.link bound (fuel' - 1)) :=
        ih (by omega) (by omega) (by omega)
      exact ⟨fuel, fuel' - 1, rfl, by omega, (CutsOff.congruence hdeeper).ops ops⟩

end Registry

/-! ## Rendering -/

/-- What rendering notes, in the order in which it happens. -/
def renderLog (reg : Registry) (bound fuel : Nat) (ops : List Op) (data : Value) : List Event :=
  let limit := if bound = 0 then none else some bound
  let fuel := if bound = 0 then fuel else bound
  if Op.allKnown ops then
    (Op.renderAll (reg.link limit fuel) ops (Scope.root data) {}).2.log.reverse
  else []

/-- Rendering with a bound, against rendering with a larger one or with none: the results are those
of two runs that differ by being cut off. -/
theorem cut_runs
    (reg : Registry) (ops : List Op) (data : Value) {limit other fuel : Nat}
    (hlimit : 1 ≤ limit)
    (hother : limit < other ∨ other = 0 ∧ limit ≤ fuel) :
    ∃ x x' : List Node × Run, Cut limit x x' ∧
      render reg limit fuel ops data =
        (if Op.allKnown ops then outcome x else .error .unknownStep) ∧
      render reg other fuel ops data =
        (if Op.allKnown ops then outcome x' else .error .unknownStep) ∧
      renderLog reg other fuel ops data = if Op.allKnown ops then x'.2.log.reverse else [] := by
  have hzero : limit ≠ 0 := by omega
  have hlarger : ∀ m ∈ (if other = 0 then none else some other), limit < m := by
    intro m hm
    split at hm
    · cases hm
    · cases hm
      omega
  have hfuel : limit ≤ (if other = 0 then fuel else other) + 0 := by
    split <;> omega
  have hlinked := reg.cutsOff_link hlarger (Nat.zero_le limit) (Nat.le_refl limit) hfuel
  have hcut := ((CutsOff.congruence hlinked).ops ops (Scope.root data)).cut {} rfl
    (Run.clear_start limit)
  refine ⟨_, _, hcut, ?_, rfl, rfl⟩
  simp only [render, if_neg hzero]

theorem outcome_eq_error_iff
    {x : List Node × Run} {e : RenderError} :
    outcome x = .error e ↔ x.2.failure = some e := by
  unfold outcome
  split
  · next e' h =>
      simp [h]
  · next h =>
      simp [h]

/-- With sincere helpers, rendering that fails for depth fails with that and nothing around it. -/
theorem isBare_of_render
    {reg : Registry}
    (h : reg.Sincere)
    {bound fuel : Nat} {ops : List Op} {data : Value} {e : RenderError}
    (he : render reg bound fuel ops data = .error e) :
    e.IsBare := by
  simp only [render] at he
  split at he
  · have hstart : ({} : Run).Bare := fun _ hnone => by cases hnone
    exact Registry.preserves_renderAll Run.stable_bare h.records _ _ ops _ {} hstart e
      (outcome_eq_error_iff.1 he)
  · cases he
    simp [RenderError.IsBare, RenderError.root]

/-- What a bound does to the result of rendering: a result that is no failure for depth is the one
with a larger bound and with none, and rendering fails for depth exactly when, without the bound,
the first failure or call of a partial at the depth of the bound is such a call. -/
theorem render_cut_off
    (reg : Registry) (ops : List Op) (data : Value) {limit other fuel : Nat}
    (hlimit : 1 ≤ limit)
    (hother : limit < other ∨ other = 0 ∧ limit ≤ fuel) :
    ((∀ name depth, render reg limit fuel ops data ≠ .error (.recursion name depth)) →
        render reg other fuel ops data = render reg limit fuel ops data) ∧
      ∀ name depth, render reg limit fuel ops data = .error (.recursion name depth) ↔
        depth = limit ∧ ∃ d, (renderLog reg other fuel ops data).find? (Event.decides limit) =
          some (.inclusion name d limit) := by
  obtain ⟨x, x', hcut, hbounded, hrender, hlog⟩ := cut_runs reg ops data hlimit hother
  rw [hbounded, hrender, hlog]
  cases Op.allKnown ops with
  | false =>
      simp
  | true =>
      simp only [if_true, outcome_eq_error_iff, ne_eq]
      cases hcut with
      | same hsame hclear =>
          refine ⟨fun _ => by rw [hsame], fun name depth => ⟨fun h => ?_, ?_⟩⟩
          · exact absurd h (hclear.failure name depth)
          · rintro ⟨_, d, hturn⟩
            have hfailed : x'.2.turn limit = x'.2.failure.map .failed := hsame ▸ hclear.turn
            rw [Run.turn, hturn] at hfailed
            cases hfailure : x'.2.failure <;> simp [hfailure] at hfailed
      | @off called d hfailure hturn =>
          refine ⟨fun h => absurd hfailure (h called limit), fun name depth => ⟨fun h => ?_, ?_⟩⟩
          · rw [hfailure] at h
            cases h
            exact ⟨rfl, d, hturn⟩
          · rintro ⟨rfl, d', hturn'⟩
            have hevent : Event.inclusion called d depth = .inclusion name d' depth :=
              Option.some.inj (hturn.symm.trans hturn')
            cases hevent
            exact hfailure

/-- The bound on how many calls of partials may be active only cuts off.  Against a larger bound, or
none, and whatever the helpers do: success gives the same nodes, a failure other than for depth is
the same failure, and rendering fails for depth exactly when the other run, before any failure,
calls a registered partial while as many calls are active as the bound says.  Helpers aside that
report such failures of their own accord, a failure for depth is recorded as it is.  Every call of a
partial ends with as many active calls as it began with. -/
theorem bound_only_cuts_off
    (reg : Registry) (ops : List Op) (data : Value) (fuel : Nat) (limit other : Int)
    (hlimit : 1 ≤ limit)
    (hother : limit ≤ other ∨ other ≤ 0 ∧ limit ≤ fuel) :
    let bounded := render reg limit.toNat fuel ops data
    let free := render reg other.toNat fuel ops data
    (∀ ns, bounded = .ok ns → free = .ok ns) ∧
      (∀ e, (∀ name depth, e ≠ .recursion name depth) → bounded = .error e → free = .error e) ∧
      (other ≠ limit → ∀ name depth, bounded = .error (.recursion name depth) ↔
        depth = limit.toNat ∧ ∃ d,
          (renderLog reg other.toNat fuel ops data).find? (Event.decides limit.toNat) =
            some (.inclusion name d limit.toNat)) ∧
      (reg.Sincere → ∀ e name depth, bounded = .error e → e.root = .recursion name depth →
        e = .recursion name depth) ∧
      ∀ bound fuel name base parameters r,
        (Render.inclusion (reg.link bound fuel) name base parameters r).2.active = r.active := by
  intro bounded free
  have hsame : (∀ name depth, bounded ≠ .error (.recursion name depth)) → free = bounded := by
    intro h
    by_cases hequal : other = limit
    · simp only [free, bounded, hequal]
    · exact (render_cut_off reg ops data (by omega) (by omega)).1 h
  refine ⟨?_, ?_, ?_, ?_, ?_⟩
  · intro ns hns
    rw [hsame (by simp [hns]), hns]
  · intro e he hbounded
    rw [hsame (by simpa [hbounded] using he), hbounded]
  · intro hdiffers
    exact (render_cut_off reg ops data (by omega) (by omega)).2
  · intro hsincere e name depth hbounded
    exact isBare_of_render hsincere hbounded name depth
  · intro bound fuel name base parameters r
    have hdisciplined := reg.disciplined_linkAs (fun _ => .steps) bound fuel
    rw [Registry.linkAs_steps] at hdisciplined
    exact (Render.disciplined_inclusion hdisciplined name base parameters).active r

/-- A partial that calls itself for each item of a list. -/
def nestRegistry : Registry where
  helper name := Helper.builtins.lookup name
  partialOps _ := some [.literal (utf8 "o"),
    .block (utf8 "each") [.path {}] [] [.inclusion (utf8 "nest") none []] none false]

theorem bound_only_cuts_off_nest :
    let ops : List Op := [.inclusion (utf8 "nest") none []]
    let data := Value.list [.list [.list []]]
    let nodes := List.replicate 3 (Node.text (utf8 "o"))
    (1 : Int) ≤ 2 ∧ ((2 : Int) ≤ -1 ∨ (-1 : Int) ≤ 0 ∧ (2 : Int) ≤ (9 : Nat)) ∧
      nestRegistry.Sincere ∧
      render nestRegistry 3 9 ops data = .ok nodes ∧
      render nestRegistry 0 9 ops data = .ok nodes ∧
      render nestRegistry 2 9 ops data = .error (.recursion (utf8 "nest") 2) ∧
      ∃ d, (renderLog nestRegistry 0 9 ops data).find? (Event.decides 2) =
        some (.inclusion (utf8 "nest") d 2) := by
  intro ops data nodes
  have hsincere : nestRegistry.Sincere :=
    Registry.sincere_of_builtins fun name helper hhelper => Fields.mem_of_lookup hhelper
  have hbounded : render nestRegistry 2 9 ops data = .error (.recursion (utf8 "nest") 2) := rfl
  have hlonger : render nestRegistry 3 9 ops data = .ok nodes := rfl
  have hfree := (bound_only_cuts_off nestRegistry ops data 9 3 (-1) (by decide)
    (by decide)).1 nodes hlonger
  have hcalls := (bound_only_cuts_off nestRegistry ops data 9 2 (-1) (by decide)
    (by decide)).2.2.1 (by decide) (utf8 "nest") 2
  exact ⟨by decide, by decide, hsincere, hlonger, hfree, hbounded, (hcalls.1 hbounded).2⟩

end Stencil
