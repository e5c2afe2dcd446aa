import Stencil.Proofs.Render.Discipline

/-!
# Bounded rendering ends

The rules by which programs are evaluated, without any fuel: what a call of a partial gives is what
its program gives, which is found in the registry by name and may call the partial again.  By these
rules an evaluation may go on forever, and then there is nothing that it gives.

Algorithm: under a bound, evaluation is a recursion on how many more calls of partials may nest, and
below that on the steps of the program and on the actions of the helpers.  The fuel of rendering is
this remaining depth: a call that would find none left is refused by the bound before.

Results: `Evaluates` states the rules.  `bounded_render_evaluates` says that under a bound every
program has exactly one evaluation, whichever partials call each other, and that rendering gives its
outcome.  `not_evaluates_of_circular` says that without a bound there are programs with none.
-/

namespace Stencil

/-! ## The rules -/

/-- What is evaluated: steps, attributes, or the actions of a helper with the sections of its
block. -/
inductive Work where
  | step (op : Op)
  | steps (ops : List Op)
  | attributes (list : List (Bytes × List Op))
  | action (body : List Op) (inverse : Option (List Op)) (action : Action)

/-- What an evaluation gives. -/
inductive Yield where
  | nodes (ns : List Node)
  | texts (attributes : List (Bytes × Bytes))
  | result (result : Except RenderError Datum)

/-- The steps of a section of a block. -/
def Section.ops (body : List Op) (inverse : Option (List Op)) : Section → Option (List Op)
  | .body => some body
  | .inverse => inverse

/-- The rules of evaluation: in some contexts and a run, work gives something and leaves the run
behind. -/
inductive Evaluates (reg : Registry) (bound : Option Nat) :
    Work → Scope → Run → Yield → Run → Prop
  | literal {v : Bytes} {s : Scope} {r : Run} :
      Evaluates reg bound (.step (.literal v)) s r (.nodes [.text v]) r
  | interpolation {p : Path} {s : Scope} {r : Run} :
      Evaluates reg bound (.step (.interpolation p)) s r (.nodes (s.lookup p).display) r
  | unknown {s : Scope} {r : Run} :
      Evaluates reg bound (.step .unknown) s r (.nodes []) r
  | element {name children : List Op} {attributes : List (Bytes × List Op)} {s : Scope}
      {r r₁ r₂ r₃ : Run} {as : List (Bytes × Bytes)} {tag ns : List Node} :
      Evaluates reg bound (.attributes attributes) s r (.texts as) r₁ →
      Evaluates reg bound (.steps name) s r₁ (.nodes tag) r₂ →
      Evaluates reg bound (.steps children) s r₂ (.nodes ns) r₃ →
      Evaluates reg bound (.step (.element name attributes children)) s r
        (.nodes [.element (Node.textOf tag) as ns]) r₃
  | blockHalted {name : Bytes} {arguments : List Input} {named : List (Bytes × Input)}
      {body : List Op} {inverse : Option (List Op)} {synthetic : Bool} {s : Scope} {r : Run}
      {e : RenderError} :
      r.failure = some e →
      Evaluates reg bound (.step (.block name arguments named body inverse synthetic)) s r
        (.nodes []) r
  | blockUnknown {name : Bytes} {arguments : List Input} {named : List (Bytes × Input)}
      {body : List Op} {inverse : Option (List Op)} {synthetic : Bool} {s : Scope} {r : Run} :
      r.failure = none →
      reg.helper name = none →
      Evaluates reg bound (.step (.block name arguments named body inverse synthetic)) s r
        (.nodes []) (r.fail (.unknownHelper name))
  | block {name : Bytes} {arguments : List Input} {named : List (Bytes × Input)}
      {body : List Op} {inverse : Option (List Op)} {synthetic : Bool} {s : Scope} {r r₁ : Run}
      {helper : Helper} {a : Arguments} {result : Except RenderError Datum} :
      r.failure = none →
      reg.helper name = some helper →
      a = ⟨arguments.map (Operand.value s), namedValues s named⟩ →
      Evaluates reg bound (.action body inverse (helper a s inverse.isSome)) s
        (r.note (.helper name a s)) (.result result) r₁ →
      Evaluates reg bound (.step (.block name arguments named body inverse synthetic)) s r
        (.nodes (Render.conclude name result r₁).1) (Render.conclude name result r₁).2
  | inclusionHalted {name : Bytes} {context : Option Path} {parameters : List (Bytes × Input)}
      {s : Scope} {r : Run} {e : RenderError} :
      r.failure = some e →
      Evaluates reg bound (.step (.inclusion name context parameters)) s r (.nodes []) r
  | inclusionUnknown {name : Bytes} {context : Option Path} {parameters : List (Bytes × Input)}
      {s : Scope} {r : Run} :
      r.failure = none →
      reg.partialOps name = none →
      Evaluates reg bound (.step (.inclusion name context parameters)) s r (.nodes [])
        (r.fail (.unknownPartial name))
  | inclusionDeep {name : Bytes} {context : Option Path} {parameters : List (Bytes × Input)}
      {s : Scope} {r : Run} {ops : List Op} :
      r.failure = none →
      reg.partialOps name = some ops →
      bound.any (· ≤ r.active) = true →
      Evaluates reg bound (.step (.inclusion name context parameters)) s r (.nodes [])
        (r.fail (.recursion name r.active))
  | inclusion {name : Bytes} {context : Option Path} {parameters : List (Bytes × Input)}
      {s : Scope} {r r₁ : Run} {ops : List Op} {data : Value} {ns : List Node} :
      r.failure = none →
      reg.partialOps name = some ops →
      bound.any (· ≤ r.active) = false →
      data = Render.includedData (context.elim s.data s.lookup) (namedValues s parameters) →
      Evaluates reg bound (.steps ops) (Scope.root data) (Render.descend name data r)
        (.nodes ns) r₁ →
      Evaluates reg bound (.step (.inclusion name context parameters)) s r (.nodes ns)
        { r₁ with active := r₁.active - 1 }
  | nil {s : Scope} {r : Run} :
      Evaluates reg bound (.steps []) s r (.nodes []) r
  | cons {op : Op} {rest : List Op} {s : Scope} {r r₁ r₂ : Run} {ns ms : List Node} :
      Evaluates reg bound (.step op) s r (.nodes ns) r₁ →
      Evaluates reg bound (.steps rest) s r₁ (.nodes ms) r₂ →
      Evaluates reg bound (.steps (op :: rest)) s r (.nodes (ns ++ ms)) r₂
  | noAttributes {s : Scope} {r : Run} :
      Evaluates reg bound (.attributes []) s r (.texts []) r
  | moreAttributes {key : Bytes} {value : List Op} {rest : List (Bytes × List Op)} {s : Scope}
      {r r₁ r₂ : Run} {ns : List Node} {as : List (Bytes × Bytes)} :
      Evaluates reg bound (.steps value) s r (.nodes ns) r₁ →
      Evaluates reg bound (.attributes rest) s r₁ (.texts as) r₂ →
      Evaluates reg bound (.attributes ((key, value) :: rest)) s r
        (.texts ((key, Node.textOf ns) :: as)) r₂
  | done {body : List Op} {inverse : Option (List Op)} {d : Datum} {s : Scope} {r : Run} :
      Evaluates reg bound (.action body inverse (.done d)) s r (.result (.ok d)) r
  | fail {body : List Op} {inverse : Option (List Op)} {e : RenderError} {s : Scope} {r : Run} :
      Evaluates reg bound (.action body inverse (.fail e)) s r (.result (.error e)) r
  | sectionHalted {body : List Op} {inverse : Option (List Op)} {part : Section} {inner : Value}
      {outer : Scope} {metadata : Metadata} {next : Except RenderError (List Node) → Action}
      {s : Scope} {r r₁ : Run} {e : RenderError} {result : Except RenderError Datum} :
      r.failure = some e →
      Evaluates reg bound (.action body inverse (next (.error e))) s
        (r.note (.returned part (.error e))) (.result result) r₁ →
      Evaluates reg bound (.action body inverse (.render part inner outer metadata next)) s r
        (.result result) r₁
  | sectionMissing {body : List Op} {inverse : Option (List Op)} {part : Section} {inner : Value}
      {outer : Scope} {metadata : Metadata} {next : Except RenderError (List Node) → Action}
      {s : Scope} {r r₁ : Run} {result : Except RenderError Datum} :
      r.failure = none →
      part.ops body inverse = none →
      Evaluates reg bound (.action body inverse (next (.ok []))) s
        (r.note (.returned part (.ok []))) (.result result) r₁ →
      Evaluates reg bound (.action body inverse (.render part inner outer metadata next)) s r
        (.result result) r₁
  | sectionPresent {body : List Op} {inverse : Option (List Op)} {part : Section} {inner : Value}
      {outer : Scope} {metadata : Metadata} {next : Except RenderError (List Node) → Action}
      {s : Scope} {r r₁ r₂ : Run} {ops : List Op} {ns : List Node}
      {result : Except RenderError Datum} :
      r.failure = none →
      part.ops body inverse = some ops →
      Evaluates reg bound (.steps ops) (outer.push inner metadata) r (.nodes ns) r₁ →
      Evaluates reg bound (.action body inverse (next (outcome (ns, r₁)))) s
        (r₁.note (.returned part (outcome (ns, r₁)))) (.result result) r₂ →
      Evaluates reg bound (.action body inverse (.render part inner outer metadata next)) s r
        (.result result) r₂

@[simp] theorem Render.active_conclude
    (name : Bytes) (result : Except RenderError Datum) (r : Run) :
    (conclude name result r).2.active = r.active := by
  rcases conclude_snd_cases name result r with hsame | ⟨e, hfail⟩
  · rw [hsame]
  · rw [hfail, Run.active_fail]

/-- An evaluation ends with as many active calls as it began with. -/
theorem Evaluates.active_eq
    {reg : Registry} {bound : Option Nat} {w : Work} {s : Scope} {r r' : Run} {y : Yield}
    (h : Evaluates reg bound w s r y r') :
    r'.active = r.active := by
  induction h with
  | literal | interpolation | unknown | nil | noAttributes | done | fail =>
      rfl
  | blockHalted | inclusionHalted =>
      rfl
  | blockUnknown | inclusionUnknown | inclusionDeep =>
      exact Run.active_fail _ _
  | element _ _ _ ihAttributes ihName ihChildren =>
      rw [ihChildren, ihName, ihAttributes]
  | block _ _ _ _ ih =>
      rw [Render.active_conclude, ih, Run.active_note]
  | inclusion _ _ _ _ _ ih =>
      simp only [ih, Render.descend, Nat.add_sub_cancel]
  | cons _ _ ihFirst ihRest | moreAttributes _ _ ihFirst ihRest =>
      rw [ihRest, ihFirst]
  | sectionHalted _ _ ih | sectionMissing _ _ _ ih =>
      rw [ih, Run.active_note]
  | sectionPresent _ _ _ _ ihOps ih =>
      rw [ih, Run.active_note, ihOps]

/-! ## Evaluation and rendering -/

/-- What rendering makes of work. -/
def Work.run (l : Linkage) : Work → Scope → Run → Yield × Run
  | .step op, s, r => (.nodes (Op.render l op s r).1, (Op.render l op s r).2)
  | .steps ops, s, r => (.nodes (Op.renderAll l ops s r).1, (Op.renderAll l ops s r).2)
  | .attributes list, s, r =>
    (.texts (Op.renderAttributes l list s r).1, (Op.renderAttributes l list s r).2)
  | .action body inverse a, _, r =>
    let x := Render.perform (Op.renderAll l body) (Op.renderInverse l inverse) a r
    (.result x.1, x.2)

namespace Work

variable {l : Linkage} {s : Scope} {r r' : Run}

theorem run_step_eq_iff
    {op : Op} {ns : List Node} :
    (Work.step op).run l s r = (.nodes ns, r') ↔ Op.render l op s r = (ns, r') := by
  simp [Work.run, Prod.ext_iff]

theorem run_steps_eq_iff
    {ops : List Op} {ns : List Node} :
    (Work.steps ops).run l s r = (.nodes ns, r') ↔ Op.renderAll l ops s r = (ns, r') := by
  simp [Work.run, Prod.ext_iff]

theorem run_attributes_eq_iff
    {list : List (Bytes × List Op)} {as : List (Bytes × Bytes)} :
    (Work.attributes list).run l s r = (.texts as, r') ↔
      Op.renderAttributes l list s r = (as, r') := by
  simp [Work.run, Prod.ext_iff]

theorem run_action_eq_iff
    {body : List Op} {inverse : Option (List Op)} {a : Action}
    {result : Except RenderError Datum} :
    (Work.action body inverse a).run l s r = (.result result, r') ↔
      Render.perform (Op.renderAll l body) (Op.renderInverse l inverse) a r = (result, r') := by
  simp [Work.run, Prod.ext_iff]

end Work

theorem Op.render_inclusion
    (l : Linkage) (name : Bytes) (context : Option Path) (parameters : List (Bytes × Input))
    (s : Scope) (r : Run) :
    Op.render l (.inclusion name context parameters) s r =
      Render.inclusion l name (context.elim s.data s.lookup) (namedValues s parameters) r := by
  rw [Op.render]

theorem Op.chosen_renderInverse
    (l : Linkage) (body : List Op) (inverse : Option (List Op)) (part : Section) :
    Render.chosen (Op.renderAll l body) (Op.renderInverse l inverse) part =
      (part.ops body inverse).map (Op.renderAll l) := by
  cases part with
  | body =>
      rfl
  | inverse =>
      cases inverse <;> simp [Render.chosen, Section.ops, Op.renderInverse]

@[simp] theorem Op.isSome_renderInverse
    (l : Linkage) (inverse : Option (List Op)) :
    (Op.renderInverse l inverse).isSome = inverse.isSome := by
  cases inverse <;> simp [Op.renderInverse]

/-! What rendering makes of blocks, calls of partials and sections, case by case as in the rules. -/

section Cases

variable {reg : Registry} {bound : Option Nat} {fuel : Nat} {s : Scope} {r : Run} {name : Bytes}
variable {body : List Op} {inverse : Option (List Op)}

section Block

variable {arguments : List Input} {named : List (Bytes × Input)} {synthetic : Bool}

theorem Registry.render_block_of_unknown
    (hr : r.failure = none)
    (hhelper : reg.helper name = none) :
    Op.render (reg.link bound fuel) (.block name arguments named body inverse synthetic) s r =
      ([], r.fail (.unknownHelper name)) := by
  have hlinked := (congrFun (reg.helper_link bound fuel) name).trans hhelper
  rw [Op.render, Render.block_of_unknown hr hlinked]

theorem Registry.render_block_of_helper
    {helper : Helper}
    (hr : r.failure = none)
    (hhelper : reg.helper name = some helper) :
    let a : Arguments := ⟨arguments.map (Operand.value s), namedValues s named⟩
    let x := Render.perform (Op.renderAll (reg.link bound fuel) body)
      (Op.renderInverse (reg.link bound fuel) inverse) (helper a s inverse.isSome)
      (r.note (.helper name a s))
    Op.render (reg.link bound fuel) (.block name arguments named body inverse synthetic) s r =
      Render.conclude name x.1 x.2 := by
  have hlinked := (congrFun (reg.helper_link bound fuel) name).trans hhelper
  rw [Op.render, Render.block_of_helper hr hlinked, Op.isSome_renderInverse]

end Block

section Inclusion

variable {context : Option Path} {parameters : List (Bytes × Input)} {ops : List Op}

theorem Registry.render_inclusion_of_deep
    (hr : r.failure = none)
    (hops : reg.partialOps name = some ops)
    (hdeep : bound.any (· ≤ r.active) = true) :
    Op.render (reg.link bound fuel) (.inclusion name context parameters) s r =
      ([], r.fail (.recursion name r.active)) := by
  obtain ⟨f, hf⟩ := Registry.inclusion_link_some bound fuel hops
  rw [Op.render_inclusion, Render.inclusion_of_deep hr hf (by rw [Registry.bound_link, hdeep])]

theorem Registry.render_inclusion_of_shallow
    (hr : r.failure = none)
    (hops : reg.partialOps name = some ops)
    (hshallow : bound.any (· ≤ r.active) = false) :
    let data := Render.includedData (context.elim s.data s.lookup) (namedValues s parameters)
    let x := Op.renderAll (reg.link bound fuel) ops (Scope.root data) (Render.descend name data r)
    Op.render (reg.link bound (fuel + 1)) (.inclusion name context parameters) s r =
      (x.1, { x.2 with active := x.2.active - 1 }) := by
  have hf := Registry.inclusion_link_succ bound fuel hops
  rw [Op.render_inclusion, Render.inclusion_of_partial hr hf hshallow]

end Inclusion

variable {l : Linkage} {part : Section} {inner : Value} {outer : Scope} {metadata : Metadata}
variable {next : Except RenderError (List Node) → Action}

theorem Render.perform_of_halted
    {e : RenderError}
    (hr : r.failure = some e) :
    perform (Op.renderAll l body) (Op.renderInverse l inverse)
        (.render part inner outer metadata next) r =
      perform (Op.renderAll l body) (Op.renderInverse l inverse) (next (.error e))
        (r.note (.returned part (.error e))) := by
  rw [perform_render, enter_of_failure hr]

theorem Render.perform_of_missing
    (hr : r.failure = none)
    (hmissing : part.ops body inverse = none) :
    perform (Op.renderAll l body) (Op.renderInverse l inverse)
        (.render part inner outer metadata next) r =
      perform (Op.renderAll l body) (Op.renderInverse l inverse) (next (.ok []))
        (r.note (.returned part (.ok []))) := by
  rw [perform_render, Op.chosen_renderInverse, hmissing, Option.map_none, enter_missing hr]

theorem Render.perform_of_present
    {ops : List Op}
    (hr : r.failure = none)
    (hpresent : part.ops body inverse = some ops) :
    let x := Op.renderAll l ops (outer.push inner metadata) r
    perform (Op.renderAll l body) (Op.renderInverse l inverse)
        (.render part inner outer metadata next) r =
      perform (Op.renderAll l body) (Op.renderInverse l inverse) (next (outcome x))
        (x.2.note (.returned part (outcome x))) := by
  rw [perform_render, Op.chosen_renderInverse, hpresent, Option.map_some, enter_present hr]
  rfl

end Cases

/-- A call that the bound does not refuse finds fuel left. -/
theorem exists_fuel_of_shallow
    {limit fuel active : Nat}
    (hfuel : limit ≤ fuel + active)
    (hshallow : (some limit).any (· ≤ active) = false) :
    ∃ rest, fuel = rest + 1 ∧ limit ≤ rest + (active + 1) := by
  simp only [Option.any_some, decide_eq_false_iff_not] at hshallow
  exact ⟨fuel - 1, by omega, by omega⟩

/-- What the rules give is what rendering gives, as long as there is fuel for as many calls as the
bound leaves. -/
theorem Evaluates.run_eq
    {reg : Registry} {limit : Nat} {w : Work} {s : Scope} {r r' : Run} {y : Yield}
    (h : Evaluates reg (some limit) w s r y r')
    {fuel : Nat}
    (hfuel : limit ≤ fuel + r.active) :
    w.run (reg.link (some limit) fuel) s r = (y, r') := by
  induction h generalizing fuel with
  | literal | interpolation | unknown =>
      simp only [Work.run, Op.render, Render.nothing]
  | nil =>
      simp only [Work.run, Op.renderAll, Render.nothing]
  | noAttributes =>
      simp only [Work.run, Op.renderAttributes]
  | done | fail =>
      rfl
  | element hattributes hname _ ihAttributes ihName ihChildren =>
      have hattributes' := Work.run_attributes_eq_iff.1 (ihAttributes hfuel)
      have hname' := Work.run_steps_eq_iff.1 (ihName (by rwa [hattributes.active_eq]))
      have hchildren' := Work.run_steps_eq_iff.1
        (ihChildren (by rwa [hname.active_eq, hattributes.active_eq]))
      rw [Work.run_step_eq_iff]
      simp only [Op.render, hattributes', hname', hchildren']
  | blockHalted hr =>
      rw [Work.run_step_eq_iff, Op.render, Render.block_of_failure hr]
  | blockUnknown hr hhelper =>
      rw [Work.run_step_eq_iff, Registry.render_block_of_unknown hr hhelper]
  | block hr hhelper harguments _ ih =>
      have hperform := Work.run_action_eq_iff.1 (ih hfuel)
      subst harguments
      rw [Work.run_step_eq_iff, Registry.render_block_of_helper hr hhelper, hperform]
  | inclusionHalted hr =>
      rw [Work.run_step_eq_iff, Op.render_inclusion, Render.inclusion_of_failure hr]
  | inclusionUnknown hr hops =>
      rw [Work.run_step_eq_iff, Op.render_inclusion,
        Render.inclusion_of_unknown hr (Registry.inclusion_link_none _ _ hops)]
  | inclusionDeep hr hops hdeep =>
      rw [Work.run_step_eq_iff, Registry.render_inclusion_of_deep hr hops hdeep]
  | inclusion hr hops hshallow hdata _ ih =>
      obtain ⟨rest, rfl, hrest⟩ := exists_fuel_of_shallow hfuel hshallow
      have hpartial := Work.run_steps_eq_iff.1 (ih hrest)
      subst hdata
      rw [Work.run_step_eq_iff, Registry.render_inclusion_of_shallow hr hops hshallow, hpartial]
  | cons hfirst _ ihFirst ihRest =>
      have hfirst' := Work.run_step_eq_iff.1 (ihFirst hfuel)
      have hrest' := Work.run_steps_eq_iff.1 (ihRest (by rwa [hfirst.active_eq]))
      rw [Work.run_steps_eq_iff]
      simp only [Op.renderAll, Render.append, hfirst', hrest']
  | moreAttributes hfirst _ ihFirst ihRest =>
      have hfirst' := Work.run_steps_eq_iff.1 (ihFirst hfuel)
      have hrest' := Work.run_attributes_eq_iff.1 (ihRest (by rwa [hfirst.active_eq]))
      rw [Work.run_attributes_eq_iff]
      simp only [Op.renderAttributes, hfirst', hrest']
  | sectionHalted hr _ ih =>
      rw [Work.run_action_eq_iff, Render.perform_of_halted hr]
      exact Work.run_action_eq_iff.1 (ih hfuel)
  | sectionMissing hr hmissing _ ih =>
      rw [Work.run_action_eq_iff, Render.perform_of_missing hr hmissing]
      exact Work.run_action_eq_iff.1 (ih hfuel)
  | sectionPresent hr hpresent hops _ ihOps ih =>
      have hops' := Work.run_steps_eq_iff.1 (ihOps hfuel)
      rw [Work.run_action_eq_iff, Render.perform_of_present hr hpresent, hops']
      exact Work.run_action_eq_iff.1 (ih (by rwa [Run.active_note, hops.active_eq]))

/-! ## Every program is evaluated -/

section Existence

variable {reg : Registry} {limit fuel : Nat}

/-- Steps are evaluated to what rendering with some fuel makes of them. -/
def Registry.Evaluated (reg : Registry) (limit fuel : Nat) (ops : List Op) : Prop :=
  ∀ (s : Scope) (r : Run), limit ≤ fuel + r.active →
    Evaluates reg (some limit) (.steps ops) s r
      (.nodes (Op.renderAll (reg.link (some limit) fuel) ops s r).1)
      (Op.renderAll (reg.link (some limit) fuel) ops s r).2

/-- All programs are evaluated with one level of nesting less. -/
def Registry.EvaluatedBelow (reg : Registry) (limit fuel : Nat) : Prop :=
  ∀ rest, fuel = rest + 1 → ∀ ops, reg.Evaluated limit rest ops

/-- The actions of a helper are evaluated when the sections of its block are. -/
theorem evaluates_action
    {body : List Op} {inverse : Option (List Op)}
    (hbody : reg.Evaluated limit fuel body)
    (hinverse : ∀ ops ∈ inverse, reg.Evaluated limit fuel ops)
    (a : Action) (s : Scope) (r : Run)
    (hfuel : limit ≤ fuel + r.active) :
    let x := Render.perform (Op.renderAll (reg.link (some limit) fuel) body)
      (Op.renderInverse (reg.link (some limit) fuel) inverse) a r
    Evaluates reg (some limit) (.action body inverse a) s r (.result x.1) x.2 := by
  have hsection : ∀ part : Section, ∀ ops, part.ops body inverse = some ops →
      reg.Evaluated limit fuel ops := by
    intro part ops hops
    cases part with
    | body =>
        cases hops
        exact hbody
    | inverse =>
        exact hinverse ops hops
  induction a generalizing r with
  | done d =>
      exact .done
  | fail e =>
      exact .fail
  | render part inner outer metadata next ih =>
      cases hr : r.failure with
      | some e =>
          rw [Render.perform_of_halted hr]
          exact .sectionHalted hr (ih _ _ hfuel)
      | none =>
          cases hops : part.ops body inverse with
          | none =>
              rw [Render.perform_of_missing hr hops]
              exact .sectionMissing hr hops (ih _ _ hfuel)
          | some ops =>
              have hevaluated := hsection part ops hops (outer.push inner metadata) r hfuel
              have hactive := hevaluated.active_eq
              rw [Render.perform_of_present hr hops]
              exact .sectionPresent hr hops hevaluated (ih _ _ (by rwa [Run.active_note, hactive]))

/-- A call of a partial that the bound refuses needs nothing, and any other goes one level deeper. -/
theorem evaluates_inclusion
    (hless : reg.EvaluatedBelow limit fuel)
    (name : Bytes) (context : Option Path) (parameters : List (Bytes × Input)) (s : Scope) (r : Run)
    (hfuel : limit ≤ fuel + r.active) :
    let x := Op.render (reg.link (some limit) fuel) (.inclusion name context parameters) s r
    Evaluates reg (some limit) (.step (.inclusion name context parameters)) s r (.nodes x.1)
      x.2 := by
  cases hr : r.failure with
  | some e =>
      rw [Op.render_inclusion, Render.inclusion_of_failure hr]
      exact .inclusionHalted hr
  | none =>
      cases hops : reg.partialOps name with
      | none =>
          rw [Op.render_inclusion,
            Render.inclusion_of_unknown hr (Registry.inclusion_link_none _ _ hops)]
          exact .inclusionUnknown hr hops
      | some ops =>
          cases hdeep : (some limit).any (· ≤ r.active) with
          | true =>
              rw [Registry.render_inclusion_of_deep hr hops hdeep]
              exact .inclusionDeep hr hops hdeep
          | false =>
              obtain ⟨rest, rfl, hrest⟩ := exists_fuel_of_shallow hfuel hdeep
              rw [Registry.render_inclusion_of_shallow hr hops hdeep]
              exact .inclusion hr hops hdeep rfl (hless rest rfl ops _ _ hrest)

mutual

theorem evaluates_step
    (hless : reg.EvaluatedBelow limit fuel) :
    ∀ (op : Op) (s : Scope) (r : Run), limit ≤ fuel + r.active →
      Evaluates reg (some limit) (.step op) s r
        (.nodes (Op.render (reg.link (some limit) fuel) op s r).1)
        (Op.render (reg.link (some limit) fuel) op s r).2
  | .literal v, s, r, _ => by
      simp only [Op.render]
      exact .literal
  | .interpolation p, s, r, _ => by
      simp only [Op.render]
      exact .interpolation
  | .element name attributes children, s, r, hfuel => by
      have hattributes := evaluates_attributes hless attributes s r hfuel
      have hname := evaluates_steps hless name s _ (by rwa [hattributes.active_eq])
      have hchildren := evaluates_steps hless children s _
        (by rwa [hname.active_eq, hattributes.active_eq])
      simp only [Op.render]
      exact .element hattributes hname hchildren
  | .block name arguments named body inverse synthetic, s, r, hfuel => by
      have hbody := evaluates_steps hless body
      have hinverse := evaluates_inverse hless inverse
      cases hr : r.failure with
      | some e =>
          rw [Op.render, Render.block_of_failure hr]
          exact .blockHalted hr
      | none =>
          cases hhelper : reg.helper name with
          | none =>
              rw [Registry.render_block_of_unknown hr hhelper]
              exact .blockUnknown hr hhelper
          | some helper =>
              rw [Registry.render_block_of_helper hr hhelper]
              exact .block hr hhelper rfl (evaluates_action hbody hinverse _ s _ hfuel)
  | .inclusion name context parameters, s, r, hfuel =>
      evaluates_inclusion hless name context parameters s r hfuel
  | .unknown, s, r, _ => by
      simp only [Op.render]
      exact .unknown

theorem evaluates_steps
    (hless : reg.EvaluatedBelow limit fuel) :
    ∀ ops : List Op, reg.Evaluated limit fuel ops
  | [], s, r, _ => by
      simp only [Op.renderAll]
      exact .nil
  | op :: rest, s, r, hfuel => by
      have hfirst := evaluates_step hless op s r hfuel
      have hrest := evaluates_steps hless rest s _ (by rwa [hfirst.active_eq])
      simp only [Op.renderAll, Render.append]
      exact .cons hfirst hrest

theorem evaluates_attributes
    (hless : reg.EvaluatedBelow limit fuel) :
    ∀ (list : List (Bytes × List Op)) (s : Scope) (r : Run), limit ≤ fuel + r.active →
      Evaluates reg (some limit) (.attributes list) s r
        (.texts (Op.renderAttributes (reg.link (some limit) fuel) list s r).1)
        (Op.renderAttributes (reg.link (some limit) fuel) list s r).2
  | [], s, r, _ => by
      simp only [Op.renderAttributes]
      exact .noAttributes
  | (key, value) :: rest, s, r, hfuel => by
      have hfirst := evaluates_steps hless value s r hfuel
      have hrest := evaluates_attributes hless rest s _ (by rwa [hfirst.active_eq])
      simp only [Op.renderAttributes]
      exact .moreAttributes hfirst hrest

theorem evaluates_inverse
    (hless : reg.EvaluatedBelow limit fuel) :
    ∀ inverse : Option (List Op), ∀ ops ∈ inverse, reg.Evaluated limit fuel ops
  | none => by
      intro ops hops
      cases hops
  | some section₂ => by
      have hsection := evaluates_steps hless section₂
      intro ops hops
      cases hops
      exact hsection

end

/-- Under a bound all programs are evaluated, by induction on how many more calls may nest. -/
theorem Registry.evaluated
    (reg : Registry) (limit fuel : Nat) (ops : List Op) :
    reg.Evaluated limit fuel ops := by
  induction fuel generalizing ops with
  | zero =>
      exact evaluates_steps (fun rest hrest => by omega) ops
  | succ fuel ih =>
      refine evaluates_steps (fun rest hrest => ?_) ops
      obtain rfl : fuel = rest := by omega
      exact ih

end Existence

theorem Run.failure_fail_ne
    {r : Run} {e e' : RenderError}
    (he : e ≠ e')
    (hr : r.failure ≠ some e') :
    (r.fail e).failure ≠ some e' := by
  cases hfailure : r.failure with
  | none =>
      rw [Run.failure_fail hfailure]
      simpa using he
  | some e₁ =>
      rwa [Run.fail_of_failure hfailure]

/-- No rule runs out of fuel. -/
theorem Evaluates.failure_ne_exhausted
    {reg : Registry} {bound : Option Nat} {w : Work} {s : Scope} {r r' : Run} {y : Yield}
    (h : Evaluates reg bound w s r y r')
    (hr : r.failure ≠ some .exhausted) :
    r'.failure ≠ some .exhausted := by
  induction h with
  | literal | interpolation | unknown | nil | noAttributes | done | fail =>
      exact hr
  | blockHalted | inclusionHalted =>
      exact hr
  | blockUnknown | inclusionUnknown | inclusionDeep =>
      exact Run.failure_fail_ne (by simp) hr
  | element _ _ _ ihAttributes ihName ihChildren =>
      exact ihChildren (ihName (ihAttributes hr))
  | block _ _ _ _ ih =>
      unfold Render.conclude
      split
      · exact Run.failure_fail_ne (by simp) (ih hr)
      · split
        · exact ih hr
        · exact ih hr
        · exact Run.failure_fail_ne (by simp) (ih hr)
  | inclusion _ _ _ _ _ ih =>
      exact ih hr
  | cons _ _ ihFirst ihRest | moreAttributes _ _ ihFirst ihRest =>
      exact ihRest (ihFirst hr)
  | sectionHalted _ _ ih | sectionMissing _ _ _ ih =>
      exact ih hr
  | sectionPresent _ _ _ _ ihOps ih =>
      exact ih (ihOps hr)

/-- Under a bound every program, with any helpers and any partials that may call each other in
circles, has exactly one evaluation, and rendering gives its outcome: nodes or a failure, which is
never that fuel ran out. -/
theorem bounded_render_evaluates
    (reg : Registry) (limit fuel : Nat)
    (hlimit : 1 ≤ limit)
    (ops : List Op) (data : Value) :
    ∃ ns r,
      Evaluates reg (some limit) (.steps ops) (Scope.root data) {} (.nodes ns) r ∧
      (∀ y r', Evaluates reg (some limit) (.steps ops) (Scope.root data) {} y r' →
        y = .nodes ns ∧ r' = r) ∧
      render reg limit fuel ops data =
        (if Op.allKnown ops then outcome (ns, r) else .error .unknownStep) ∧
      render reg limit fuel ops data ≠ .error .exhausted := by
  have hevaluates := reg.evaluated limit limit ops (Scope.root data) {} (Nat.le_add_right _ _)
  have hlimit' : limit ≠ 0 := by omega
  refine ⟨_, _, hevaluates, ?_, ?_, ?_⟩
  · intro y r' h
    have hrun := (h.run_eq (Nat.le_add_right limit _)).symm
    exact Prod.mk.inj hrun
  · simp only [render, if_neg hlimit']
  · have hfailure := hevaluates.failure_ne_exhausted (by simp)
    simp only [render, if_neg hlimit']
    split
    · unfold outcome
      split
      · next e he =>
          rw [he] at hfailure
          simpa using hfailure
      · simp
    · simp

/-- The registry whose only partial calls itself. -/
def circularRegistry : Registry :=
  ⟨fun _ => none, fun name =>
    if name = utf8 "p" then some [.literal (utf8 "."), .inclusion (utf8 "p") none []] else none⟩

theorem bounded_render_evaluates_circular :
    1 ≤ 3 ∧ ∃ ns r,
      Evaluates circularRegistry (some 3) (.steps [.inclusion (utf8 "p") none []])
        (Scope.root .null) {} (.nodes ns) r ∧
      outcome (ns, r) = .error (.recursion (utf8 "p") 3) := by
  obtain ⟨ns, r, hevaluates, _, hrender, _⟩ := bounded_render_evaluates circularRegistry 3 0
    (by decide) [.inclusion (utf8 "p") none []] .null
  have houtcome : render circularRegistry 3 0 [.inclusion (utf8 "p") none []] .null =
      .error (.recursion (utf8 "p") 3) := rfl
  exact ⟨by decide, ns, r, hevaluates, hrender.symm.trans houtcome⟩

/-- Without a bound there is no evaluation of a partial that does nothing but call itself. -/
theorem not_evaluates_of_circular
    {reg : Registry} {name : Bytes} {context : Option Path} {parameters : List (Bytes × Input)}
    (hcircular : reg.partialOps name = some [.inclusion name context parameters])
    {w : Work} {s : Scope} {r r' : Run} {y : Yield}
    (hr : r.failure = none)
    (hw : w = .step (.inclusion name context parameters) ∨
      w = .steps [.inclusion name context parameters]) :
    ¬ Evaluates reg none w s r y r' := by
  intro h
  -- Each evaluation would contain one of the same call further down.
  induction h with
  | inclusion _ hops _ _ _ ih =>
      simp only [Work.step.injEq, Op.inclusion.injEq, reduceCtorEq, or_false] at hw
      obtain ⟨rfl, rfl, rfl⟩ := hw
      rw [hcircular, Option.some.injEq] at hops
      exact ih hr (.inr (by rw [hops]))
  | cons _ _ ihFirst _ =>
      simp only [Work.steps.injEq, List.cons.injEq, reduceCtorEq, false_or] at hw
      exact ihFirst hr (.inl (by rw [hw.1]))
  | inclusionHalted hhalted =>
      rw [hr] at hhalted
      cases hhalted
  | inclusionUnknown _ hops =>
      simp only [Work.step.injEq, Op.inclusion.injEq, reduceCtorEq, or_false] at hw
      rw [hw.1, hcircular] at hops
      cases hops
  | inclusionDeep _ _ hdeep =>
      cases hdeep
  | _ =>
      simp at hw

end Stencil
