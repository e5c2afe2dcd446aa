import Stencil.Proofs.Render.Agreement

/-!
# The order of calls

Run step by step, an element takes its attributes before its name; its code takes the name before
the attributes.  So the two ways to run a program do not call helpers and partials in the same order
wherever both the name and the attributes of an element call something.

Algorithm: a program and its code are related by what allows to exchange the name and the attributes
of the elements that occur.  This is used for equality, which allows the exchange where one of the
two calls nothing, and for the relation that what is noted is the same up to its order, which allows
it everywhere.

Results: `calls_agree_of_templated`, a program without a negative zero among its operands makes the
same calls in both ways whenever it succeeds, and it does the same altogether where no element calls
something in its name and in its attributes.
-/

namespace Stencil

/-! ## Elements whose order does not show -/

/-- A call of a helper or of a partial. -/
def Op.isCall : Op → Bool
  | .block .. | .inclusion .. => true
  | .literal _ | .interpolation _ | .element .. | .unknown => false

/-- An element does not call something in its name and something else in its attributes. -/
def Op.inOrder : Op → Bool
  | .element name attributes _ =>
    !(Op.allSteps name).any Op.isCall || !(Op.attributeSteps attributes).any Op.isCall
  | .literal _ | .interpolation _ | .block .. | .inclusion .. | .unknown => true

/-- A computation that leaves every run as it is and gives the same in all of them. -/
def Steady {α : Type} (f : Run → α × Run) : Prop := ∃ a, ∀ r, f r = (a, r)

theorem Steady.unchanged
    {α : Type} (a : α) :
    Steady fun r => (a, r) :=
  ⟨a, fun _ => rfl⟩

theorem Steady.seq
    {α β : Type} {f : Run → α × Run} {g : α → Run → β × Run}
    (hf : Steady f)
    (hg : ∀ a, Steady (g a)) :
    Steady fun r => g (f r).1 (f r).2 := by
  obtain ⟨a, ha⟩ := hf
  obtain ⟨b, hb⟩ := hg a
  refine ⟨b, fun r => ?_⟩
  simp only [ha, hb]

theorem Steady.map
    {α β : Type} {f : Run → α × Run}
    (hf : Steady f)
    (g : α → β) :
    Steady fun r => (g (f r).1, (f r).2) :=
  hf.seq fun a => .unchanged (g a)

/-- It does not show when something steady is computed. -/
theorem inverted_eq_inTurn_of_steady
    {α β : Type} {f : Run → α × Run} {g : Run → β × Run}
    (h : Steady f ∨ Steady g) :
    inverted f g = inTurn f g := by
  funext r
  rcases h with ⟨a, hf⟩ | ⟨b, hg⟩
  · simp only [inverted, inTurn, hf]
  · simp only [inverted, inTurn, hg]

namespace Op

mutual

theorem steady_render
    (l : Linkage) (s : Scope) :
    ∀ op : Op, (∀ step ∈ op.steps, step.isCall = false) → Steady (Op.render l op s)
  | .literal v, _ => by
      simp only [Op.render]
      exact .unchanged _
  | .interpolation p, _ => by
      simp only [Op.render]
      exact .unchanged _
  | .element name attributes children, h => by
      simp only [Op.steps, List.mem_cons, List.mem_append] at h
      have hattributes := steady_renderAttributes l s attributes fun step hstep =>
        h step (.inr (.inl (.inr hstep)))
      have hname := steady_renderAll l s name fun step hstep => h step (.inr (.inl (.inl hstep)))
      have hchildren := steady_renderAll l s children fun step hstep => h step (.inr (.inr hstep))
      simp only [Op.render]
      exact hattributes.seq fun as => hname.seq fun tag =>
        hchildren.map fun ns => [Node.element (Node.textOf tag) as ns]
  | .block name arguments named body inverse synthetic, h => by
      cases h _ (Op.mem_steps_self _)
  | .inclusion name context parameters, h => by
      cases h _ (Op.mem_steps_self _)
  | .unknown, _ => by
      simp only [Op.render]
      exact .unchanged _

theorem steady_renderAll
    (l : Linkage) (s : Scope) :
    ∀ ops : List Op, (∀ step ∈ Op.allSteps ops, step.isCall = false) →
      Steady (Op.renderAll l ops s)
  | [], _ => by
      simp only [Op.renderAll]
      exact .unchanged _
  | op :: rest, h => by
      simp only [Op.allSteps, List.mem_append] at h
      have hop := steady_render l s op fun step hstep => h step (.inl hstep)
      have hrest := steady_renderAll l s rest fun step hstep => h step (.inr hstep)
      simp only [Op.renderAll]
      exact hop.seq fun ns => hrest.map fun ms => ns ++ ms

theorem steady_renderAttributes
    (l : Linkage) (s : Scope) :
    ∀ attributes : List (Bytes × List Op),
      (∀ step ∈ Op.attributeSteps attributes, step.isCall = false) →
        Steady (Op.renderAttributes l attributes s)
  | [], _ => by
      simp only [Op.renderAttributes]
      exact .unchanged _
  | (key, value) :: rest, h => by
      simp only [Op.attributeSteps, List.mem_append] at h
      have hvalue := steady_renderAll l s value fun step hstep => h step (.inl hstep)
      have hrest := steady_renderAttributes l s rest fun step hstep => h step (.inr hstep)
      simp only [Op.renderAttributes]
      exact hvalue.seq fun ns => hrest.map fun as => (key, Node.textOf ns) :: as

end

/-- An element in order has steady attributes or a steady name. -/
theorem steady_of_inOrder
    {name children : List Op} {attributes : List (Bytes × List Op)}
    (h : (Op.element name attributes children).inOrder = true)
    (l : Linkage) (s : Scope) :
    Steady (Op.renderAttributes l attributes s) ∨ Steady (Op.renderText l name s) := by
  simp only [inOrder, Bool.or_eq_true, Bool.not_eq_true', List.any_eq_false,
    Bool.not_eq_true] at h
  rcases h with hname | hattributes
  · exact Or.inr ((steady_renderAll l s name hname).map Node.textOf)
  · exact Or.inl (steady_renderAttributes l s attributes hattributes)

end Op

/-- Equality, which the building blocks of rendering respect. -/
def Congruence.equality (l : Linkage) : Congruence l l where
  rel f f' := f = f'
  unchanged := fun _ => rfl
  seq := by
    intro α β f f' g g' hf hg
    rw [hf, funext hg]
  block := by
    intro name arguments body body' inverse inverse' hbody hinverse s
    have hsections : inverse = inverse' := by
      cases hinverse with
      | none =>
          rfl
      | some h =>
          rw [funext h]
    rw [funext hbody, hsections]
  inclusion := fun _ _ _ => rfl

theorem Congruence.exchanges_equality
    (l : Linkage) :
    (Congruence.equality l).Exchanges (fun op => op.inOrder = true) := by
  intro name attributes children horder s f' g' hattributes hname
  have hattributes : Op.renderAttributes l attributes s = f' := hattributes
  have hname : Op.renderText l name s = g' := hname
  rw [← hattributes, ← hname]
  exact (inverted_eq_inTurn_of_steady (Op.steady_of_inOrder horder l s)).symm

/-! ## The same events in some order -/

/-- On the way from `r` to `q` the same is noted as on the way from `r'` to `q'`, up to the order. -/
def NotedAlike (r q r' q' : Run) : Prop :=
  ∃ added added', q.log = added ++ r.log ∧ q'.log = added' ++ r'.log ∧ added.Perm added'

namespace NotedAlike

variable {r q p r' q' p' : Run}

theorem refl
    (r r' : Run) :
    NotedAlike r r r' r' :=
  ⟨[], [], rfl, rfl, .refl []⟩

theorem note
    (event : Event) (r r' : Run) :
    NotedAlike r (r.note event) r' (r'.note event) :=
  ⟨[event], [event], rfl, rfl, .refl _⟩

theorem trans
    (h₁ : NotedAlike r q r' q')
    (h₂ : NotedAlike q p q' p') :
    NotedAlike r p r' p' := by
  obtain ⟨first, first', hfirst, hfirst', hperm₁⟩ := h₁
  obtain ⟨second, second', hsecond, hsecond', hperm₂⟩ := h₂
  refine ⟨second ++ first, second' ++ first', ?_, ?_, hperm₂.append hperm₁⟩
  · rw [hsecond, hfirst, List.append_assoc]
  · rw [hsecond', hfirst', List.append_assoc]

/-- What comes first on the one side comes second on the other. -/
theorem across
    (h₁ : NotedAlike r q q' p')
    (h₂ : NotedAlike q p r' q') :
    NotedAlike r p r' p' := by
  obtain ⟨first, second', hfirst, hsecond', hperm₁⟩ := h₁
  obtain ⟨second, first', hsecond, hfirst', hperm₂⟩ := h₂
  refine ⟨second ++ first, second' ++ first', ?_, ?_, ?_⟩
  · rw [hsecond, hfirst, List.append_assoc]
  · rw [hsecond', hfirst', List.append_assoc]
  · exact (hperm₂.append hperm₁).trans List.perm_append_comm

end NotedAlike

/-- Two computations that agree and, where they succeed, note the same up to the order. -/
structure Reordered {α : Type} (f f' : Run → α × Run) : Prop where
  agree : Agree f f'
  noted : ∀ r r', r.Abreast r' → (f r).2.failure = none →
    NotedAlike r (f r).2 r' (f' r').2

/-- Reordering in all contexts. -/
def Render.Reordered (f f' : Render) : Prop := ∀ s, Stencil.Reordered (f s) (f' s)

namespace Reordered

theorem unchanged
    {α : Type} (a : α) :
    Reordered (fun r => (a, r)) (fun r => (a, r)) :=
  ⟨.unchanged a, fun r r' _ _ => .refl r r'⟩

theorem seq
    {α β : Type} {f f' : Run → α × Run} {g g' : α → Run → β × Run}
    (hf : Reordered f f')
    (hg : ∀ a, Reordered (g a) (g' a)) :
    Reordered (fun r => g (f r).1 (f r).2) (fun r => g' (f' r).1 (f' r).2) where
  agree := hf.agree.seq fun a => (hg a).agree
  noted := by
    intro r r' h hgoing
    have hfirst := (hg (f r).1).agree.left.going_of_going hgoing
    obtain ⟨habreast, hsame⟩ := hf.agree.alike h
    have hnoted := (hg (f r).1).noted _ _ habreast hgoing
    rw [← hsame hfirst]
    exact (hf.noted r r' h hfirst).trans hnoted

/-- Two computations in either order: what the first notes on the one side, the second notes on the
other. -/
theorem exchange
    {α β : Type} {f f' : Run → α × Run} {g g' : Run → β × Run}
    (hf : Reordered f f')
    (hg : Reordered g g') :
    Reordered (inTurn f g) (inverted f' g') where
  agree := hf.agree.swap hg.agree
  noted := by
    intro r r' h hgoing
    obtain ⟨hfirst, hbehind, hbefore⟩ := hf.agree.abreast_across hg.agree h hgoing
    exact (hf.noted r _ hbefore hfirst).across (hg.noted _ r' hbehind hgoing)

end Reordered

theorem Render.Reordered.agree_of_rel
    {part part' : Option Render}
    (h : Option.Rel Render.Reordered part part') :
    Option.Rel Render.Agree part part' := by
  cases h with
  | none =>
      exact .none
  | some hpart =>
      exact .some fun s => (hpart s).agree

namespace Render

theorem notedAlike_enter
    {part part' : Option Render}
    (hpart : Option.Rel Render.Reordered part part')
    (inner : Value) (outer : Scope) (metadata : Metadata)
    {r r' : Run}
    (h : r.Abreast r')
    (hgoing : (enter part inner outer metadata r).2.failure = none) :
    NotedAlike r (enter part inner outer metadata r).2 r'
      (enter part' inner outer metadata r').2 := by
  rcases h.failed_or with ⟨hr, hr'⟩ | ⟨e, e', hr, hr'⟩
  · cases hpart with
    | none =>
        rw [enter_missing hr, enter_missing hr']
        exact .refl r r'
    | some hf =>
        rw [enter_present hr] at hgoing
        rw [enter_present hr, enter_present hr']
        exact (hf (outer.push inner metadata)).noted r r' h hgoing
  · rw [enter_of_failure hr, enter_of_failure hr']
    exact .refl r r'

theorem notedAlike_perform
    {body body' : Render} {inverse inverse' : Option Render}
    (hbody : Render.Reordered body body')
    (hinverse : Option.Rel Render.Reordered inverse inverse')
    (action : Action)
    {r r' : Run}
    (h : r.Abreast r')
    (hgoing : (perform body inverse action r).2.failure = none) :
    NotedAlike r (perform body inverse action r).2 r' (perform body' inverse' action r').2 := by
  induction action generalizing r r' with
  | done result =>
      exact .refl r r'
  | fail e =>
      exact .refl r r'
  | render part inner outer metadata next ih =>
      have hpart := rel_chosen hbody hinverse part
      obtain ⟨habreast, hsame⟩ :=
        alike_enter (Render.Reordered.agree_of_rel hpart) inner outer metadata h
      rw [perform_render] at hgoing
      rw [perform_render, perform_render]
      -- The section has succeeded, so it gives the same back to the helper on both sides.
      have hentered : (enter (chosen body inverse part) inner outer metadata r).2.failure = none := by
        have hnoted := going_of_going_perform hgoing
        rwa [Run.failure_note] at hnoted
      rw [← hsame hentered]
      exact ((notedAlike_enter hpart inner outer metadata h hentered).trans (.note _ _ _)).trans
        (ih _ (habreast.note _ _) hgoing)

/-- A block that succeeds leaves the run as its helper does. -/
theorem conclude_snd_of_going
    {name : Bytes} {result : Except RenderError Datum} {r : Run}
    (h : (conclude name result r).2.failure = none) :
    (conclude name result r).2 = r := by
  rcases conclude_snd_cases name result r with hsame | ⟨e, hfail⟩
  · exact hsame
  · rw [hfail] at h ⊢
    cases hr : r.failure with
    | none =>
        rw [Run.failure_fail hr] at h
        cases h
    | some e' =>
        exact Run.fail_of_failure hr e

end Render

/-- Two linkages with the same helpers and the same bound whose partials are reordered. -/
structure Linkage.Reordered (l l' : Linkage) : Prop where
  helper : l.helper = l'.helper
  bound : l.bound = l'.bound
  inclusion : ∀ name, Option.Rel Render.Reordered (l.inclusion name) (l'.inclusion name)

theorem Linkage.Reordered.agree
    {l l' : Linkage}
    (hl : l.Reordered l') :
    l.Agree l' :=
  ⟨hl.helper, hl.bound, fun name => Render.Reordered.agree_of_rel (hl.inclusion name)⟩

namespace Render

theorem reordered_block
    {l l' : Linkage}
    (hl : l.Reordered l')
    (name : Bytes) (arguments : Scope → Arguments) {body body' : Render}
    {inverse inverse' : Option Render}
    (hbody : Render.Reordered body body')
    (hinverse : Option.Rel Render.Reordered inverse inverse') :
    Render.Reordered (block l name arguments body inverse)
      (block l' name arguments body' inverse') := by
  have hisSome : inverse.isSome = inverse'.isSome := by
    cases hinverse <;> rfl
  have hagree := agree_block hl.agree name arguments (fun s => (hbody s).agree)
    (Render.Reordered.agree_of_rel hinverse)
  refine fun s => ⟨hagree s, fun r r' h hgoing => ?_⟩
  have hgoing' := ((hagree s).alike h).abreast.failed.1 hgoing
  have hr := (hagree s).left.going_of_going hgoing
  have hr' := h.failed.1 hr
  cases hhelper : l.helper name with
  | none =>
      rw [block_of_unknown hr hhelper, Run.failure_fail hr] at hgoing
      cases hgoing
  | some helper =>
      have hhelper' : l'.helper name = some helper := by rw [← hl.helper, hhelper]
      rw [block_of_helper hr hhelper] at hgoing
      rw [block_of_helper hr' hhelper', ← hisSome] at hgoing'
      rw [block_of_helper hr hhelper, block_of_helper hr' hhelper', ← hisSome,
        conclude_snd_of_going hgoing, conclude_snd_of_going hgoing']
      rw [conclude_snd_of_going hgoing] at hgoing
      exact (NotedAlike.note _ r r').trans
        (notedAlike_perform hbody hinverse _ (h.note _ _) hgoing)

theorem reordered_inclusion
    {l l' : Linkage}
    (hl : l.Reordered l')
    (name : Bytes) (base : Value) (parameters : List (Bytes × Value)) :
    Stencil.Reordered (inclusion l name base parameters) (inclusion l' name base parameters) := by
  have hagree := agree_inclusion hl.agree name base parameters
  refine ⟨hagree, fun r r' h hgoing => ?_⟩
  have hr := hagree.left.going_of_going hgoing
  have hr' := h.failed.1 hr
  have hname := hl.inclusion name
  generalize hf : l.inclusion name = found at hname
  generalize hf' : l'.inclusion name = found' at hname
  cases hname with
  | none =>
      rw [inclusion_of_unknown hr hf, Run.failure_fail hr] at hgoing
      cases hgoing
  | some hpartial =>
      cases hdeep : l.bound.any (· ≤ r.active) with
      | true =>
          rw [inclusion_of_deep hr hf hdeep, Run.failure_fail hr] at hgoing
          cases hgoing
      | false =>
          have hdeep' : l'.bound.any (· ≤ r'.active) = false := by
            rw [← hl.bound, ← h.active, hdeep]
          have hbefore : (descend name (includedData base parameters) r).Abreast
              (descend name (includedData base parameters) r') :=
            ⟨congrArg (· + 1) h.active, h.failed⟩
          rw [inclusion_of_partial hr hf hdeep] at hgoing
          rw [inclusion_of_partial hr hf hdeep, inclusion_of_partial hr' hf' hdeep']
          have hdescended : NotedAlike r (descend name (includedData base parameters) r) r'
              (descend name (includedData base parameters) r') := by
            unfold descend
            rw [h.active]
            exact NotedAlike.note _ r r'
          exact hdescended.trans ((hpartial (Scope.root _)).noted _ _ hbefore hgoing)

end Render

/-- The building blocks of rendering note the same on both sides, up to the order. -/
def Reordered.congruence {l l' : Linkage} (hl : l.Reordered l') : Congruence l l' where
  rel f f' := Reordered f f'
  unchanged := fun a => .unchanged a
  seq := fun hf hg => hf.seq hg
  block := fun name arguments _ _ _ _ hbody hinverse =>
    Render.reordered_block hl name arguments hbody hinverse
  inclusion := Render.reordered_inclusion hl

theorem Reordered.exchanges
    {l l' : Linkage}
    (hl : l.Reordered l') :
    (Reordered.congruence hl).Exchanges (fun _ => True) :=
  fun _ _ _ _ _ _ _ hattributes hname => Reordered.exchange hattributes hname

/-! ## Programs -/

/-- A program of a template without a negative zero among its operands. -/
structure Op.Templated (ops : List Op) : Prop where
  compiled : ∃ names trees, Compile.forest names trees = .ok ops
  noNegativeZero : ∀ a ∈ Op.allInputs ops, a ≠ .literal (.written (.float (.zero true)))

theorem Op.Templated.kept
    {ops : List Op}
    (h : Op.Templated ops) :
    ∀ a ∈ Op.allInputs ops, Operand.Kept a := by
  obtain ⟨⟨names, trees, hbuild⟩, hzero⟩ := h
  have hcompiled := Compile.nodes_eq_ok_iff.1 hbuild
  intro a ha
  exact Operand.kept_of_written (hcompiled.inputs_written a ha) (hzero a ha)

/-- All registered partials are programs with a property. -/
def Registry.Partials (reg : Registry) (property : List Op → Prop) : Prop :=
  ∀ name ops, reg.partialOps name = some ops → property ops

namespace Registry

/-- Partials run step by step are reordered into partials in any forms. -/
theorem reordered_linkAs
    {reg : Registry}
    (hpartials : reg.Partials Op.Templated)
    (forms : Bytes → Backend) (bound : Option Nat) (fuel : Nat) :
    (reg.linkAs (fun _ => .steps) bound fuel).Reordered (reg.linkAs forms bound fuel) := by
  induction fuel with
  | zero =>
      refine ⟨rfl, rfl, fun name => ?_⟩
      have hagree := (reg.agree_linkAs forms bound 0).inclusion name
      simp only [linkAs] at hagree ⊢
      cases hops : reg.partialOps name with
      | none =>
          exact .none
      | some ops =>
          rw [hops] at hagree
          cases hagree with
          | some h =>
              refine .some fun s => ⟨h s, fun r r' habreast hgoing => ?_⟩
              have hr := (h s).left.going_of_going hgoing
              rw [Run.failure_fail hr] at hgoing
              cases hgoing
  | succ fuel ih =>
      refine ⟨rfl, rfl, fun name => ?_⟩
      simp only [linkAs]
      cases hops : reg.partialOps name with
      | none =>
          exact .none
      | some ops =>
          exact .some fun s => (Reordered.congruence ih).steps_backend (Reordered.exchanges ih)
            (hpartials name ops hops).kept (fun _ _ => trivial) (forms name) s

/-- Partials in order do the same in all forms. -/
theorem linkAs_eq_of_inOrder
    {reg : Registry}
    (hpartials : reg.Partials Op.Templated)
    (horder : reg.Partials fun ops => ∀ op ∈ Op.allSteps ops, op.inOrder = true)
    (forms : Bytes → Backend) (bound : Option Nat) (fuel : Nat) :
    reg.linkAs (fun _ => .steps) bound fuel = reg.linkAs forms bound fuel := by
  induction fuel with
  | zero =>
      rfl
  | succ fuel ih =>
      have hinclusion : ∀ name,
          (reg.partialOps name).map (Op.renderAll (reg.linkAs forms bound fuel)) =
            (reg.partialOps name).map ((forms name).render (reg.linkAs forms bound fuel)) := by
        intro name
        refine Option.map_congr fun ops hops => funext fun s => ?_
        exact (Congruence.equality _).steps_backend (Congruence.exchanges_equality _)
          (hpartials name ops hops).kept (horder name ops hops) (forms name) s
      simp only [linkAs, ih]
      exact congrArg (Linkage.mk reg.helper · bound) (funext hinclusion)

end Registry

/-- Programs of templates without negative zeros, run step by step and as emitted code, with their
partials in any forms there: both succeed or none, and if they do they give the same nodes and make
the same calls, up to the order.  Where no element calls something in its name and in its attributes
the two runs are the same, with all that they note and with the failure.  What a helper does depends
on its arguments, its contexts and what its sections give alone; with a helper that keeps a state of
its own, calls in another order can also give other nodes. -/
theorem calls_agree_of_templated
    (reg : Registry)
    (hpartials : reg.Partials Op.Templated)
    (ops : List Op)
    (hops : Op.Templated ops)
    (forms : Bytes → Backend) (bound : Option Nat) (fuel : Nat) (data : Value) :
    let steps := reg.runAs (fun _ => .steps) bound fuel .steps ops data
    let emitted := reg.runAs forms bound fuel .emitted ops data
    (steps.2.failure = none ↔ emitted.2.failure = none) ∧
      (steps.2.failure = none → steps.1 = emitted.1 ∧ steps.2.log.Perm emitted.2.log) ∧
      ((∀ op ∈ Op.allSteps ops, op.inOrder = true) →
        (reg.Partials fun program => ∀ op ∈ Op.allSteps program, op.inOrder = true) →
          steps = emitted) := by
  intro steps emitted
  have hlinked := Registry.reordered_linkAs hpartials forms bound fuel
  have hreordered := (Reordered.congruence hlinked).steps_backend (Reordered.exchanges hlinked)
    hops.kept (fun _ _ => trivial) .emitted (Scope.root data)
  have hstart : ({} : Run).Abreast {} := .of_going rfl rfl rfl
  obtain ⟨habreast, hsame⟩ := hreordered.agree.alike hstart
  refine ⟨habreast.failed, fun hgoing => ⟨hsame hgoing, ?_⟩, fun horder horders => ?_⟩
  · obtain ⟨added, added', hlog, hlog', hperm⟩ := hreordered.noted {} {} hstart hgoing
    have hlog : steps.2.log = added := hlog.trans (List.append_nil added)
    have hlog' : emitted.2.log = added' := hlog'.trans (List.append_nil added')
    rw [hlog, hlog']
    exact hperm
  · have hequal := Registry.linkAs_eq_of_inOrder hpartials horders forms bound fuel
    have hcode := (Congruence.equality (reg.linkAs forms bound fuel)).steps_backend
      (Congruence.exchanges_equality _) hops.kept horder .emitted (Scope.root data)
    have hrun : Op.renderAll (reg.linkAs forms bound fuel) ops (Scope.root data) {} = emitted :=
      congrFun hcode {}
    rw [← hrun]
    exact congrArg (fun l => Op.renderAll l ops (Scope.root data) {}) hequal

/-- The name of what a call calls. -/
def Event.callee : Event → Option Bytes
  | .helper name _ _ | .inclusion name _ _ => some name
  | .returned .. | .failed _ => none

/-- The calls of a run in the order in which they are made. -/
def Run.callees (r : Run) : List Bytes := r.log.reverse.filterMap Event.callee

/-- The fragments of a helper call outside blocks. -/
def callSample (name : String) : List Fragment :=
  [⟨⟨0, 9⟩, .opening (utf8 name) [] true⟩, ⟨⟨0, 9⟩, .interpolation .this⟩,
    ⟨⟨0, 9⟩, .closing (utf8 name)⟩]

/-- An element that calls one helper in its name and another one in an attribute. -/
def headingSample : List Tree :=
  [.element ⟨0, 9⟩ (⟨⟨0, 9⟩, .literal (utf8 "h")⟩ :: callSample "level")
    [(utf8 "class", callSample "style")]
    [.text ⟨0, 9⟩ [⟨⟨0, 9⟩, .inclusion (utf8 "title") none []⟩]]]

/-- An element that calls a helper in an attribute only. -/
def titleSample : List Tree :=
  [.element ⟨0, 9⟩ [⟨⟨0, 9⟩, .literal (utf8 "b")⟩] [(utf8 "class", callSample "style")] []]

/-- The step of a helper call outside blocks. -/
def callOp (name : String) : Op := .block (utf8 name) [] [] [.interpolation {}] none true

/-- The program of `headingSample`. -/
def headingOps : List Op :=
  [.element [.literal (utf8 "h"), callOp "level"] [(utf8 "class", [callOp "style"])]
    [.inclusion (utf8 "title") none []]]

/-- The program of `titleSample`. -/
def titleOps : List Op :=
  [.element [.literal (utf8 "b")] [(utf8 "class", [callOp "style"])] []]

/-- Helpers that render their bodies, and `titleOps` as a partial. -/
def headingRegistry : Registry :=
  ⟨fun _ => some fun _ s _ => .showSection .body s.data s,
   fun name => if name = utf8 "title" then some titleOps else none⟩

theorem calls_agree_headingSample :
    let steps := headingRegistry.runAs (fun _ => .steps) (some 8) 8 .steps
    let emitted := headingRegistry.runAs (fun _ => .emitted) (some 8) 8 .emitted
    Op.Templated headingOps ∧ Op.Templated titleOps ∧
      (steps headingOps (.int 1)).2.failure = none ∧
      (steps headingOps (.int 1)).2.log.Perm (emitted headingOps (.int 1)).2.log ∧
      (steps headingOps (.int 1)).2.callees =
        [utf8 "style", utf8 "level", utf8 "title", utf8 "style"] ∧
      (emitted headingOps (.int 1)).2.callees =
        [utf8 "level", utf8 "style", utf8 "title", utf8 "style"] ∧
      steps titleOps (.int 1) = emitted titleOps (.int 1) := by
  intro steps emitted
  have hheading : Op.Templated headingOps := ⟨⟨Names.any, headingSample, rfl⟩, by decide⟩
  have htitle : Op.Templated titleOps := ⟨⟨Names.any, titleSample, rfl⟩, by decide⟩
  have hpartials : ∀ property : List Op → Prop, property titleOps →
      headingRegistry.Partials property := by
    intro property hproperty name program hprogram
    simp only [headingRegistry, Option.ite_none_right_eq_some, Option.some.injEq] at hprogram
    rw [← hprogram.2]
    exact hproperty
  have hagree := fun ops (hops : Op.Templated ops) =>
    calls_agree_of_templated headingRegistry (hpartials _ htitle) ops hops (fun _ => .emitted)
      (some 8) 8 (.int 1)
  have hgoing : (steps headingOps (.int 1)).2.failure = none := rfl
  refine ⟨hheading, htitle, hgoing, ((hagree headingOps hheading).2.1 hgoing).2, rfl, rfl, ?_⟩
  exact (hagree titleOps htitle).2.2 (by decide) (hpartials _ (by decide))

/-- Where both helpers of the element fail, the two ways to run it call different ones and fail
differently. -/
theorem calls_disagree_headingSample :
    let reg : Registry := ⟨fun _ => some fun _ _ _ => .fail (.reported []), fun _ => none⟩
    let steps := reg.runAs (fun _ => .steps) none 8 .steps headingOps .null
    let emitted := reg.runAs (fun _ => .steps) none 8 .emitted headingOps .null
    Compile.forest Names.any headingSample = .ok headingOps ∧
      steps.2.callees = [utf8 "style"] ∧ emitted.2.callees = [utf8 "level"] ∧
      outcome steps = .error (.within (utf8 "style") (.reported [])) ∧
      outcome emitted = .error (.within (utf8 "level") (.reported [])) :=
  ⟨rfl, rfl, rfl, rfl, rfl⟩

end Stencil
