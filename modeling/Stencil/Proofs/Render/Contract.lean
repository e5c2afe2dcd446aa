import Stencil.Proofs.Render.Contexts
import Stencil.Proofs.Render.Nesting

/-!
# What a run preserves

A contract says which steps programs may have, which values may be in view, which nodes may come out
and which failures may be recorded.  A registry keeps a contract when every building block of
rendering keeps it: looking up, showing, calling a helper, calling a partial.

Result: `Contract.Kept.run`, a program with allowed steps, run on an allowed value with a registry
that keeps the contract, gives allowed nodes and records allowed failures only.
-/

namespace Stencil

/-! ## The steps of a program -/

mutual

/-- A step and all steps below it. -/
def Op.steps : Op → List Op
  | .element name attributes children =>
    .element name attributes children ::
      (Op.allSteps name ++ Op.attributeSteps attributes ++ Op.allSteps children)
  | .block name arguments named body inverse synthetic =>
    .block name arguments named body inverse synthetic ::
      (Op.allSteps body ++ Op.inverseSteps inverse)
  | .literal s => [.literal s]
  | .interpolation p => [.interpolation p]
  | .inclusion name context parameters => [.inclusion name context parameters]
  | .unknown => [.unknown]

/-- Steps and all steps below them. -/
def Op.allSteps : List Op → List Op
  | [] => []
  | op :: rest => op.steps ++ Op.allSteps rest

/-- The steps of attribute values. -/
def Op.attributeSteps : List (Bytes × List Op) → List Op
  | [] => []
  | (_, value) :: rest => Op.allSteps value ++ Op.attributeSteps rest

/-- The steps behind an `else`. -/
def Op.inverseSteps : Option (List Op) → List Op
  | none => []
  | some ops => Op.allSteps ops

end

theorem Op.mem_steps_self
    (op : Op) :
    op ∈ op.steps := by
  cases op <;> simp [Op.steps]

theorem Op.forall_attributeSteps
    {attributes : List (Bytes × List Fragment)} {value : List Fragment → List Op} {S : Op → Prop}
    (h : ∀ a ∈ attributes, ∀ op ∈ Op.allSteps (value a.2), S op) :
    ∀ op ∈ Op.attributeSteps (attributes.map fun a => (a.1, value a.2)), S op := by
  induction attributes with
  | nil =>
      exact fun op hop => absurd hop List.not_mem_nil
  | cons a rest ih =>
      obtain ⟨hvalue, hrest⟩ := List.forall_mem_cons.1 h
      exact List.forall_mem_append.2 ⟨hvalue, ih hrest⟩

/-- What holds of the items of a list and is passed on to those inside of elements carries over to
all of its steps. -/
theorem Compiled.steps
    {names : Names} {I : Item → Prop} {S : Op → Prop}
    (hmark : ∀ depth span mark op,
      I (.fragment ⟨span, mark⟩) → mark.Compiled names depth op → S op)
    (hblock : ∀ name arguments named body inverse synthetic, names.helper name = true →
      S (.block name arguments named body inverse synthetic))
    (helement : ∀ depth name attributes children nameOps childOps (value : List Fragment → List Op),
      I (.element name attributes children) → Compiled names depth (name.map .fragment) nameOps →
        Compiled names depth (Item.ofForest children) childOps →
        S (.element nameOps (attributes.map fun a => (a.1, value a.2)) childOps))
    (hparts : ∀ name attributes children, I (.element name attributes children) →
      (∀ f ∈ name, I (.fragment f)) ∧ (∀ a ∈ attributes, ∀ f ∈ a.2, I (.fragment f)) ∧
        ∀ i ∈ Item.ofForest children, I i)
    {depth : Nat} {items : List Item} {ops : List Op}
    (h : Compiled names depth items ops)
    (hitems : ∀ i ∈ items, I i) :
    ∀ op ∈ Op.allSteps ops, S op := by
  have hfragments : ∀ fs : List Fragment, (∀ f ∈ fs, I (.fragment f)) →
      ∀ i ∈ fs.map Item.fragment, I i := fun fs hfs => List.forall_mem_map.2 hfs
  induction h with
  | nil =>
      exact fun op hop => absurd hop List.not_mem_nil
  | mark hcompiled _ ih =>
      obtain ⟨hself, hrest⟩ := List.forall_mem_cons.1 hitems
      have hop := hmark _ _ _ _ hself hcompiled
      refine List.forall_mem_append.2 ⟨?_, ih hrest⟩
      cases hcompiled <;> exact List.forall_mem_singleton.2 hop
  | @element depth name attributes children rest nameOps childOps ops value hname _ hchildren _
      ihName ihAttributes ihChildren ih =>
      obtain ⟨hself, hrest⟩ := List.forall_mem_cons.1 hitems
      obtain ⟨hnameItems, hvalueItems, hchildItems⟩ := hparts _ _ _ hself
      have hvalues : ∀ op ∈ Op.attributeSteps (attributes.map fun a => (a.1, value a.2)), S op :=
        Op.forall_attributeSteps fun a ha =>
          ihAttributes a ha (hfragments a.2 (hvalueItems a ha))
      refine List.forall_mem_append.2 ⟨List.forall_mem_cons.2 ⟨?_, ?_⟩, ih hrest⟩
      · exact helement _ _ _ _ _ _ value hself hname hchildren
      · exact List.forall_mem_append.2 ⟨List.forall_mem_append.2
          ⟨ihName (hfragments name hnameItems), hvalues⟩, ihChildren hchildItems⟩
  | block known climbs _ _ ihBody ih =>
      obtain ⟨_, hmore⟩ := List.forall_mem_cons.1 hitems
      obtain ⟨hbody, hmore⟩ := List.forall_mem_append.1 hmore
      obtain ⟨_, hrest⟩ := List.forall_mem_cons.1 hmore
      refine List.forall_mem_append.2 ⟨List.forall_mem_cons.2 ⟨hblock _ _ _ _ _ _ known, ?_⟩, ih hrest⟩
      exact List.forall_mem_append.2 ⟨ihBody hbody, fun op hop => absurd hop List.not_mem_nil⟩
  | blockElse known climbs _ _ _ ihBody ihInverse ih =>
      obtain ⟨_, hmore⟩ := List.forall_mem_cons.1 hitems
      obtain ⟨hbody, hmore⟩ := List.forall_mem_append.1 hmore
      obtain ⟨_, hmore⟩ := List.forall_mem_cons.1 hmore
      obtain ⟨hinverse, hmore⟩ := List.forall_mem_append.1 hmore
      obtain ⟨_, hrest⟩ := List.forall_mem_cons.1 hmore
      refine List.forall_mem_append.2 ⟨List.forall_mem_cons.2 ⟨hblock _ _ _ _ _ _ known, ?_⟩, ih hrest⟩
      exact List.forall_mem_append.2 ⟨ihBody hbody, ihInverse hinverse⟩

/-! ## Contracts -/

/-- What may occur in a run. -/
structure Contract where
  step : Op → Prop
  value : Value → Prop
  node : Node → Prop
  failure : RenderError → Prop

namespace Contract

variable (c : Contract)

/-- All nodes of a forest are allowed. -/
def Nodes (ns : List Node) : Prop := ∀ n ∈ ns, c.node n

/-- All values in some contexts and in their metadata are allowed. -/
def Scope (s : Stencil.Scope) : Prop := ∀ f ∈ s, c.value f.data ∧ ∀ m ∈ f.metadata, c.value m.2

/-- The failure of a run is allowed. -/
def Run (r : Stencil.Run) : Prop := ∀ e, r.failure = some e → c.failure e

/-- What a section gives back to its helper is allowed. -/
def Outcome : Except RenderError (List Node) → Prop
  | .ok ns => c.Nodes ns
  | .error e => c.failure e

/-- What a helper ends with is allowed. -/
def Result : Except RenderError Datum → Prop
  | .ok d => ∀ ns, d.splice = .ok ns → c.Nodes ns
  | .error e => c.failure e

/-- The actions of a helper lead to allowed results as long as its sections do. -/
def Action : Stencil.Action → Prop
  | .done d => c.Result (.ok d)
  | .fail e => c.Result (.error e)
  | .render _ inner outer metadata next =>
    c.Scope (outer.push inner metadata) ∧
      ∀ outcome, c.Outcome outcome → Contract.Action (next outcome)

/-- The arguments of a call are allowed. -/
def Arguments (a : Stencil.Arguments) : Prop :=
  (∀ v ∈ a.positional, c.value v) ∧ ∀ p ∈ a.named, c.value p.2

/-- A helper does what is allowed when it is called with what is allowed. -/
def Helper (helper : Stencil.Helper) : Prop :=
  ∀ a s hasInverse, c.Arguments a → c.Scope s → c.Action (helper a s hasInverse)

/-- All steps of a program are allowed. -/
def Program (ops : List Op) : Prop := ∀ op ∈ Op.allSteps ops, c.step op

/-- A registry whose building blocks of rendering keep a contract. -/
structure Kept (reg : Registry) : Prop where
  null : c.value .null
  constant : ∀ k : Constant, c.value k.value
  get : ∀ v key, c.value v → c.value (v.get key)
  trust : ∀ op, c.step op → ∀ p ∈ op.paths, p.trusted = true → ∀ v, c.value v → c.value v.trust
  included : ∀ base parameters, c.value base → (∀ a ∈ parameters, c.value a.2) →
    c.value (Render.includedData base parameters)
  display : ∀ v, c.value v → c.Nodes v.display
  literal : ∀ s, c.step (.literal s) → c.node (.text s)
  element : ∀ name attributes children, c.step (.element name attributes children) →
    ∀ l s r r' as, as.map Prod.fst = attributes.map Prod.fst →
      c.Nodes (Op.renderAll l children s r').1 →
      c.node (.element (Node.textOf (Op.renderAll l name s r).1) as
        (Op.renderAll l children s r').1)
  helper : ∀ name helper, reg.helper name = some helper → c.Helper helper
  partialOps : ∀ name ops, reg.partialOps name = some ops → c.Program ops
  noHelper : ∀ name arguments named body inverse synthetic,
    c.step (.block name arguments named body inverse synthetic) → reg.helper name = none →
      c.failure (.unknownHelper name)
  noPartial : ∀ name context parameters, c.step (.inclusion name context parameters) →
    reg.partialOps name = none → c.failure (.unknownPartial name)
  within : ∀ name e, c.failure e → c.failure (.within name e)
  unsupported : ∀ type, c.failure (.unsupported type)
  recursion : ∀ name depth, c.failure (.recursion name depth)
  exhausted : c.failure .exhausted

/-- Rendering keeps a contract. -/
def Keeps (f : Render) : Prop :=
  ∀ s r, c.Scope s → c.Run r → c.Nodes (f s r).1 ∧ c.Run (f s r).2

/-- What programs can call is registered and keeps a contract. -/
structure Serves (reg : Registry) (l : Linkage) : Prop where
  helper : l.helper = reg.helper
  keeps : ∀ name f, l.inclusion name = some f → c.Keeps f
  missing : ∀ name, l.inclusion name = none → reg.partialOps name = none

variable {c}

theorem Nodes.append
    {ns ms : List Node}
    (hns : c.Nodes ns)
    (hms : c.Nodes ms) :
    c.Nodes (ns ++ ms) := by
  intro n hn
  rcases List.mem_append.1 hn with h | h
  · exact hns n h
  · exact hms n h

theorem nodes_nil :
    c.Nodes [] := by
  intro n hn
  cases hn

theorem nodes_singleton
    {n : Node}
    (h : c.node n) :
    c.Nodes [n] := by
  intro m hm
  obtain rfl := List.mem_singleton.1 hm
  exact h

theorem Run.note
    {r : Stencil.Run}
    (h : c.Run r)
    (event : Event) :
    c.Run (r.note event) :=
  h

theorem Run.fail
    {r : Stencil.Run} {e : RenderError}
    (h : c.Run r)
    (he : c.failure e) :
    c.Run (r.fail e) := by
  cases hfailure : r.failure with
  | some e' =>
      rw [Run.fail_of_failure hfailure]
      exact h
  | none =>
      intro e' he'
      rw [Run.failure_fail hfailure] at he'
      cases he'
      exact he

/-! ## Looking up -/

section LookUp

variable {reg : Registry} (hkept : c.Kept reg)

theorem Scope.push
    {s : Stencil.Scope} {inner : Value} {metadata : Metadata}
    (hs : c.Scope s)
    (hinner : c.value inner)
    (hmetadata : ∀ m ∈ metadata, c.value m.2) :
    c.Scope (s.push inner metadata) :=
  Stencil.Scope.All.push hs hinner hmetadata

theorem scope_root
    {data : Value}
    (hdata : c.value data) :
    c.Scope (Stencil.Scope.root data) :=
  Stencil.Scope.All.root hdata

include hkept in
theorem Scope.data
    {s : Stencil.Scope}
    (hs : c.Scope s) :
    c.value s.data :=
  Stencil.Scope.All.data hkept.null hs

include hkept in
/-- The paths of an allowed step lead to allowed values. -/
theorem Scope.lookup
    {s : Stencil.Scope} {op : Op} {p : Path}
    (hs : c.Scope s)
    (hop : c.step op)
    (hp : p ∈ op.paths) :
    c.value (s.lookup p) :=
  Stencil.Scope.All.lookup hkept.null hkept.get hs (hkept.trust op hop p hp)

include hkept in
theorem value_operand
    {s : Stencil.Scope} {op : Op} {a : Input}
    (hs : c.Scope s)
    (hop : c.step op)
    (ha : ∀ p ∈ Operand.paths a, p ∈ op.paths) :
    c.value (a.value s) := by
  cases a with
  | path p =>
      exact Scope.lookup hkept hs hop (ha p (List.mem_singleton.2 rfl))
  | literal k =>
      exact hkept.constant k

include hkept in
theorem value_namedValues
    {s : Stencil.Scope} {op : Op} {named : List (Bytes × Input)}
    (hs : c.Scope s)
    (hop : c.step op)
    (hnamed : ∀ a ∈ named, ∀ p ∈ Operand.paths a.2, p ∈ op.paths) :
    ∀ v ∈ namedValues s named, c.value v.2 := by
  intro v hv
  obtain ⟨a, ha, rfl⟩ := List.mem_map.1 hv
  exact value_operand hkept hs hop (hnamed a ha)

end LookUp

/-! ## Calls -/

section Calls

theorem enter_keeps
    {part : Option Render} {inner : Value} {outer : Stencil.Scope} {metadata : Metadata}
    (hpart : ∀ f ∈ part, c.Keeps f)
    (hscope : c.Scope (outer.push inner metadata))
    {r : Stencil.Run}
    (hr : c.Run r) :
    c.Outcome (Render.enter part inner outer metadata r).1 ∧
      c.Run (Render.enter part inner outer metadata r).2 := by
  cases hfailure : r.failure with
  | some e =>
      rw [Render.enter_of_failure hfailure]
      exact ⟨hr e hfailure, hr⟩
  | none =>
      cases part with
      | none =>
          rw [Render.enter_missing hfailure]
          exact ⟨nodes_nil, hr⟩
      | some f =>
          rw [Render.enter_present hfailure]
          obtain ⟨hnodes, hrun⟩ := hpart f rfl _ r hscope hr
          refine ⟨?_, hrun⟩
          cases hfailed : (f (outer.push inner metadata) r).2.failure with
          | none =>
              exact hnodes
          | some e =>
              exact hrun e hfailed

/-- Whatever sections a helper renders, one action after the other keeps the contract. -/
theorem perform_keeps
    {body : Render} {inverse : Option Render}
    (hbody : c.Keeps body)
    (hinverse : ∀ f ∈ inverse, c.Keeps f)
    {action : Stencil.Action}
    (haction : c.Action action)
    {r : Stencil.Run}
    (hr : c.Run r) :
    c.Result (Render.perform body inverse action r).1 ∧
      c.Run (Render.perform body inverse action r).2 := by
  induction action generalizing r with
  | done d =>
      exact ⟨haction, hr⟩
  | fail e =>
      exact ⟨haction, hr⟩
  | render part inner outer metadata next ih =>
      obtain ⟨hscope, hnext⟩ := haction
      obtain ⟨houtcome, hrun⟩ :=
        enter_keeps (Render.forall_mem_chosen hbody hinverse part) hscope hr
      rw [Render.perform_render]
      exact ih _ (hnext _ houtcome) (hrun.note _)

variable {reg : Registry} (hkept : c.Kept reg)

include hkept in
theorem conclude_keeps
    {name : Bytes} {result : Except RenderError Datum} {r : Stencil.Run}
    (hresult : c.Result result)
    (hr : c.Run r) :
    c.Nodes (Render.conclude name result r).1 ∧ c.Run (Render.conclude name result r).2 := by
  cases result with
  | error e =>
      exact ⟨nodes_nil, hr.fail (hkept.within name e hresult)⟩
  | ok d =>
      unfold Render.conclude
      simp only
      split
      · exact ⟨nodes_nil, hr⟩
      · next ns hfailure hsplice =>
          exact ⟨hresult ns hsplice, hr⟩
      · exact ⟨nodes_nil, hr.fail (hkept.within name _ (hkept.unsupported _))⟩

variable {l : Linkage} (hserves : c.Serves reg l)

include hkept hserves in
theorem block_keeps
    {name : Bytes} {arguments : Stencil.Scope → Stencil.Arguments} {body : Render}
    {inverse : Option Render}
    (hunknown : reg.helper name = none → c.failure (.unknownHelper name))
    (harguments : ∀ s, c.Scope s → c.Arguments (arguments s))
    (hbody : c.Keeps body)
    (hinverse : ∀ f ∈ inverse, c.Keeps f) :
    c.Keeps (Render.block l name arguments body inverse) := by
  intro s r hs hr
  cases hfailure : r.failure with
  | some e =>
      rw [Render.block_of_failure hfailure]
      exact ⟨nodes_nil, hr⟩
  | none =>
      cases hhelper : l.helper name with
      | none =>
          rw [Render.block_of_unknown hfailure hhelper]
          exact ⟨nodes_nil, hr.fail (hunknown (hserves.helper ▸ hhelper))⟩
      | some helper =>
          rw [Render.block_of_helper hfailure hhelper]
          have haction := hkept.helper name helper (hserves.helper ▸ hhelper) (arguments s) s
            inverse.isSome (harguments s hs) hs
          obtain ⟨hresult, hrun⟩ := perform_keeps hbody hinverse haction
            (hr.note (.helper name (arguments s) s))
          exact conclude_keeps hkept hresult hrun

include hkept hserves in
theorem inclusion_keeps
    {name : Bytes} {base : Value} {parameters : List (Bytes × Value)}
    (hunknown : reg.partialOps name = none → c.failure (.unknownPartial name))
    (hbase : c.value base)
    (hparameters : ∀ a ∈ parameters, c.value a.2)
    {r : Stencil.Run}
    (hr : c.Run r) :
    c.Nodes (Render.inclusion l name base parameters r).1 ∧
      c.Run (Render.inclusion l name base parameters r).2 := by
  cases hfailure : r.failure with
  | some e =>
      rw [Render.inclusion_of_failure hfailure]
      exact ⟨nodes_nil, hr⟩
  | none =>
      cases hf : l.inclusion name with
      | none =>
          rw [Render.inclusion_of_unknown hfailure hf]
          exact ⟨nodes_nil, hr.fail (hunknown (hserves.missing name hf))⟩
      | some f =>
          cases hdeep : l.bound.any (· ≤ r.active) with
          | true =>
              rw [Render.inclusion_of_deep hfailure hf hdeep]
              exact ⟨nodes_nil, hr.fail (hkept.recursion name r.active)⟩
          | false =>
              rw [Render.inclusion_of_partial hfailure hf hdeep]
              have hdata := hkept.included base parameters hbase hparameters
              exact hserves.keeps name f hf _ _ (scope_root hdata) hr

end Calls

/-! ## Programs -/

section Programs

variable {reg : Registry} {l : Linkage}

mutual

/-- One step keeps the contract when the steps below it do. -/
theorem op_keeps
    (hkept : c.Kept reg)
    (hserves : c.Serves reg l) :
    ∀ op : Op, (∀ o ∈ op.steps, c.step o) → c.Keeps (Op.render l op)
  | .literal v, hsteps, s, r, hs, hr => by
      simp only [Op.render]
      exact ⟨nodes_singleton (hkept.literal v (hsteps _ (Op.mem_steps_self _))), hr⟩
  | .interpolation p, hsteps, s, r, hs, hr => by
      simp only [Op.render]
      have hvalue := Scope.lookup hkept hs (hsteps _ (Op.mem_steps_self _))
        (List.mem_singleton.2 rfl)
      exact ⟨hkept.display _ hvalue, hr⟩
  | .element name attributes children, hsteps, s, r, hs, hr => by
      have hself := hsteps _ (Op.mem_steps_self _)
      simp only [Op.steps, List.mem_cons, List.mem_append] at hsteps
      obtain ⟨hkeys, hattributes⟩ := attributes_keep hkept hserves attributes
        (fun o ho => hsteps o (Or.inr (Or.inl (Or.inr ho)))) hs hr
      obtain ⟨_, hname⟩ := ops_keep hkept hserves name
        (fun o ho => hsteps o (Or.inr (Or.inl (Or.inl ho)))) s _ hs hattributes
      obtain ⟨hnodes, hrun⟩ := ops_keep hkept hserves children
        (fun o ho => hsteps o (Or.inr (Or.inr ho))) s _ hs hname
      simp only [Op.render]
      exact ⟨nodes_singleton (hkept.element name attributes children hself l s _ _ _ hkeys hnodes),
        hrun⟩
  | .block name arguments named body inverse synthetic, hsteps, s, r, hs, hr => by
      have hself := hsteps _ (Op.mem_steps_self _)
      simp only [Op.steps, List.mem_cons, List.mem_append] at hsteps
      have hbody := ops_keep hkept hserves body fun o ho => hsteps o (Or.inr (Or.inl ho))
      have hinverse := inverse_keeps hkept hserves inverse fun o ho =>
        hsteps o (Or.inr (Or.inr ho))
      have harguments : ∀ s, c.Scope s →
          c.Arguments ⟨arguments.map (Operand.value s), namedValues s named⟩ := by
        intro s hs
        refine ⟨fun v hv => ?_, value_namedValues hkept hs hself fun a ha p hp => ?_⟩
        · obtain ⟨a, ha, rfl⟩ := List.mem_map.1 hv
          refine value_operand hkept hs hself fun p hp => ?_
          exact List.mem_append_left _ (List.mem_flatMap.2 ⟨a, ha, hp⟩)
        · exact List.mem_append_right _ (List.mem_flatMap.2 ⟨a, ha, hp⟩)
      simp only [Op.render]
      exact block_keeps hkept hserves (hkept.noHelper name _ _ _ _ _ hself) harguments hbody
        hinverse s r hs hr
  | .inclusion name context parameters, hsteps, s, r, hs, hr => by
      have hself := hsteps _ (Op.mem_steps_self _)
      have hbase : c.value (context.elim s.data s.lookup) := by
        cases context with
        | none =>
            exact Scope.data hkept hs
        | some p =>
            exact Scope.lookup hkept hs hself (List.mem_append_left _ (List.mem_singleton.2 rfl))
      have hparameters := value_namedValues hkept hs hself fun a ha p hp =>
        List.mem_append_right _ (List.mem_flatMap.2 ⟨a, ha, hp⟩)
      simp only [Op.render]
      exact inclusion_keeps hkept hserves (hkept.noPartial name _ _ hself) hbase hparameters hr
  | .unknown, hsteps, s, r, hs, hr => by
      simp only [Op.render]
      exact ⟨nodes_nil, hr⟩

theorem ops_keep
    (hkept : c.Kept reg)
    (hserves : c.Serves reg l) :
    ∀ ops : List Op, c.Program ops → c.Keeps (Op.renderAll l ops)
  | [], _, s, r, hs, hr => by
      simp only [Op.renderAll]
      exact ⟨nodes_nil, hr⟩
  | op :: rest, hsteps, s, r, hs, hr => by
      have hop := op_keeps hkept hserves op fun o ho => hsteps o (List.mem_append_left _ ho)
      have hrest := ops_keep hkept hserves rest fun o ho => hsteps o (List.mem_append_right _ ho)
      obtain ⟨hnodes, hrun⟩ := hop s r hs hr
      obtain ⟨hmore, hend⟩ := hrest s _ hs hrun
      simp only [Op.renderAll]
      exact ⟨hnodes.append hmore, hend⟩

theorem attributes_keep
    (hkept : c.Kept reg)
    (hserves : c.Serves reg l) :
    ∀ attributes : List (Bytes × List Op), (∀ o ∈ Op.attributeSteps attributes, c.step o) →
      ∀ {s : Stencil.Scope} {r : Stencil.Run}, c.Scope s → c.Run r →
        (Op.renderAttributes l attributes s r).1.map Prod.fst = attributes.map Prod.fst ∧
          c.Run (Op.renderAttributes l attributes s r).2
  | [], _, s, r, hs, hr => by
      simp only [Op.renderAttributes]
      exact ⟨rfl, hr⟩
  | (key, value) :: rest, hsteps, s, r, hs, hr => by
      obtain ⟨_, hvalue⟩ := ops_keep hkept hserves value
        (fun o ho => hsteps o (List.mem_append_left _ ho)) s r hs hr
      obtain ⟨hkeys, hrest⟩ := attributes_keep hkept hserves rest
        (fun o ho => hsteps o (List.mem_append_right _ ho)) hs hvalue
      simp only [Op.renderAttributes, List.map_cons, hkeys]
      exact ⟨trivial, hrest⟩

theorem inverse_keeps
    (hkept : c.Kept reg)
    (hserves : c.Serves reg l) :
    ∀ inverse : Option (List Op), (∀ o ∈ Op.inverseSteps inverse, c.step o) →
      ∀ f ∈ Op.renderInverse l inverse, c.Keeps f
  | none, _, f, hf => by
      simp only [Op.renderInverse] at hf
      cases hf
  | some ops, hsteps, f, hf => by
      simp only [Op.renderInverse] at hf
      cases hf
      exact ops_keep hkept hserves ops hsteps

end

/-- Registered partials keep the contract, by induction on how deep their calls may nest. -/
theorem Kept.serves
    (hkept : c.Kept reg)
    (bound : Option Nat) (fuel : Nat) :
    c.Serves reg (reg.link bound fuel) := by
  induction fuel with
  | zero =>
      refine ⟨rfl, fun name f hf => ?_, fun name hnone => Option.map_eq_none_iff.1 hnone⟩
      obtain ⟨ops, _, rfl⟩ := Option.map_eq_some_iff.1 hf
      intro s r hs hr
      exact ⟨nodes_nil, hr.fail hkept.exhausted⟩
  | succ fuel ih =>
      refine ⟨rfl, fun name f hf => ?_, fun name hnone => Option.map_eq_none_iff.1 hnone⟩
      obtain ⟨ops, hops, rfl⟩ := Option.map_eq_some_iff.1 hf
      exact ops_keep hkept ih ops (hkept.partialOps name ops hops)

/-- A whole run keeps the contract: its nodes are allowed, and so is its failure. -/
theorem Kept.run
    (hkept : c.Kept reg)
    {ops : List Op}
    (hops : c.Program ops)
    (data : Value)
    (hdata : c.value data)
    (bound : Option Nat) (fuel : Nat) :
    c.Outcome (outcome (Op.renderAll (reg.link bound fuel) ops (Stencil.Scope.root data) {})) := by
  have hstart : c.Run {} := by
    intro e he
    cases he
  obtain ⟨hnodes, hrun⟩ := ops_keep hkept (hkept.serves bound fuel) ops hops _ {}
    (scope_root hdata) hstart
  unfold outcome
  split
  · next e hfailure =>
      exact hrun e hfailure
  · exact hnodes

/-- The nodes that a program renders are allowed. -/
theorem Kept.render
    (hkept : c.Kept reg)
    {ops : List Op}
    (hops : c.Program ops)
    {data : Value}
    (hdata : c.value data)
    {bound fuel : Nat} {nodes : List Node}
    (h : Stencil.render reg bound fuel ops data = .ok nodes) :
    c.Nodes nodes := by
  unfold Stencil.render at h
  simp only at h
  split at h
  · have houtcome := hkept.run hops data hdata (if bound = 0 then none else some bound)
      (if bound = 0 then fuel else bound)
    rwa [h] at houtcome
  · cases h

end Programs

end Contract

end Stencil
