import Stencil.Proofs.Render.History

/-!
# Going through a sequence

The helper `each` renders its body once for every item of a list or field of a record, one pass
after the other.  Each pass does what it does in a run of its own, so what comes of the block can be
said pass by pass: the nodes of all passes in order, or the failure of the first pass that fails,
with nothing done for those behind it.

Results: `each_goes_through_in_order`.
-/

namespace Stencil

/-! ## Contexts -/

/-- The context of one pass: the element in view inside of the calling contexts, with metadata for
its place and for its key if it has one.  The number of a place is exact unless there are more
elements than integers that count them; other metadata are those of the calling contexts. -/
structure PassContext (outer : Scope) (label : Option Bytes) (v : Value) (i n : Nat) (s : Scope) :
    Prop where
  data : s.data = v
  parent : s.parent = outer
  index : ∃ m, s.metadata (utf8 "index") = .int m ∧ (n ≤ Nat.pow 2 63 → m.toInt = i)
  first : s.metadata (utf8 "first") = .bool (i = 0)
  last : s.metadata (utf8 "last") = .bool (i + 1 = n)
  key : ∀ k ∈ label, s.metadata (utf8 "key") = .text k
  other : ∀ name, name ∉ [utf8 "index", utf8 "first", utf8 "last"] →
    (name = utf8 "key" → label = none) → s.metadata name = outer.metadata name

/-- The contexts of the passes over elements: one for each, in order. -/
structure PassContexts (outer : Scope) (elements : List (Option Bytes × Value))
    (contexts : List Scope) : Prop where
  length : contexts.length = elements.length
  pass : ∀ (i : Nat) (e : Option Bytes × Value) (s : Scope),
    elements[i]? = some e → contexts[i]? = some s →
      PassContext outer e.1 e.2 i elements.length s

/-- The contexts that a helper puts elements with metadata in. -/
def contextsOf (outer : Scope) (passes : List (Value × Metadata)) : List Scope :=
  passes.map fun p => outer.push p.1 p.2

theorem Scope.metadata_push
    (v : Value) (m : Metadata) (s : Scope) (name : Bytes) :
    (s.push v m).metadata name = (m.lookup name).getD (s.metadata name) := by
  simp only [Scope.push, Scope.metadata]
  cases m.lookup name <;> rfl

/-- The metadata of a place and further metadata, which come last. -/
theorem lookup_iterationMetadata
    (i n : Nat) (more : Metadata) {name : Bytes}
    (h : name ∉ [utf8 "index", utf8 "first", utf8 "last"]) :
    (iterationMetadata i n ++ more).lookup name = more.lookup name := by
  simp only [List.mem_cons, List.not_mem_nil, or_false, not_or, ← beq_eq_false_iff_ne] at h
  obtain ⟨hindex, hfirst, hlast⟩ := h
  simp [iterationMetadata, List.lookup_cons, hindex, hfirst, hlast]

theorem passContext_push
    (outer : Scope) (label : Option Bytes) (v : Value) {i n : Nat}
    (h : i < n) :
    PassContext outer label v i n (outer.push v (iterationMetadata i n ++
      (label.map fun k => (utf8 "key", Value.text k)).toList)) where
  data := rfl
  parent := rfl
  index := by
    refine ⟨Int64.ofNat i, rfl, fun hcount => ?_⟩
    exact Int64.toInt_ofNat_of_lt (Nat.lt_of_lt_of_le h hcount)
  first := rfl
  last := rfl
  key := by
    rintro k rfl
    rfl
  other := by
    intro name hname hkey
    rw [Scope.metadata_push, lookup_iterationMetadata i n _ hname]
    cases label with
    | none =>
        rfl
    | some k =>
        have hne : (name == utf8 "key") = false :=
          beq_eq_false_iff_ne.2 fun heq => by cases hkey heq
        simp [List.lookup_cons, hne]

theorem passContexts_of_passes
    (outer : Scope) {elements : List (Option Bytes × Value)} {passes : List (Value × Metadata)}
    (hlength : passes.length = elements.length)
    (hpasses : ∀ i e, elements[i]? = some e →
      passes[i]? = some (e.2, iterationMetadata i elements.length ++
        (e.1.map fun k => (utf8 "key", Value.text k)).toList)) :
    PassContexts outer elements (contextsOf outer passes) where
  length := by rw [contextsOf, List.length_map, hlength]
  pass := by
    intro i e s he hs
    rw [contextsOf, List.getElem?_map, hpasses i e he] at hs
    cases hs
    exact passContext_push outer e.1 e.2 (List.getElem?_eq_some_iff.1 he).1

theorem passContexts_list
    (outer : Scope) (items : List Value) :
    PassContexts outer (items.map fun v => (none, v))
      (contextsOf outer (Helper.listPasses items)) := by
  refine passContexts_of_passes outer (by simp [Helper.listPasses]) fun i e he => ?_
  obtain ⟨v, hv, rfl⟩ := Option.map_eq_some_iff.1 (List.getElem?_map ▸ he)
  simp [Helper.listPasses, hv]

theorem passContexts_record
    (outer : Scope) (entries : List (Bytes × Value)) :
    PassContexts outer (entries.map fun e => (some e.1, e.2))
      (contextsOf outer (Helper.recordPasses entries)) := by
  refine passContexts_of_passes outer (by simp [Helper.recordPasses]) fun i e he => ?_
  obtain ⟨f, hf, rfl⟩ := Option.map_eq_some_iff.1 (List.getElem?_map ▸ he)
  simp [Helper.recordPasses, hf]

/-! ## Passes -/

/-- What a run notes for a pass over a section: what the section notes in a run of its own, and then
that it returns. -/
def Render.passEvents (part : Section) (f : Render) (active : Nat) (s : Scope) : List Event :=
  (f.alone active s).2.log.reverse ++ [.returned part (outcome (f.alone active s))]

/-- The run with the events of passes noted. -/
def Run.noteAll (events : List Event) (r : Run) : Run := { r with log := events.reverse ++ r.log }

theorem Run.failure_noteAll
    {r : Run}
    (hr : r.failure = none)
    (events : List Event) :
    (r.noteAll events).failure = none :=
  hr

/-- A block whose helper renders a section in some contexts, one pass after the other.  If no pass
fails, the block gives the nodes of all passes in order and notes the events of all; otherwise it
fails with the failure of the first that does, and nothing is noted for those behind it. -/
structure GoesThrough (part : Section) (f : Render) (call : Event) (contexts : List Scope) (r : Run)
    (result : List Node × Run) : Prop where
  succeeds :
    (∀ s ∈ contexts, (f.alone r.active s).2.failure = none) →
      result = (contexts.flatMap fun s => (f.alone r.active s).1,
        r.noteAll (call :: contexts.flatMap (f.passEvents part r.active)))
  fails : ∀ (front : List Scope) (s : Scope) (back : List Scope) (e : RenderError),
    contexts = front ++ s :: back →
    (∀ t ∈ front, (f.alone r.active t).2.failure = none) →
    (f.alone r.active s).2.failure = some e →
      result = ([], { r.noteAll (call :: (front ++ [s]).flatMap (f.passEvents part r.active)) with
        failure := some e })

namespace Render

/-- A section that is missing renders nothing. -/
theorem enter_getD
    (part : Option Render) (inner : Value) (outer : Scope) (metadata : Metadata) (r : Run) :
    enter part inner outer metadata r =
      enter (some (part.getD nothing)) inner outer metadata r := by
  cases part with
  | some f =>
      rfl
  | none =>
      cases hr : r.failure with
      | some e =>
          rw [enter_of_failure hr, enter_of_failure hr]
      | none =>
          rw [enter_missing hr, enter_present hr]
          simp [nothing, hr]

theorem chosen_body
    (body : Render) (inverse : Option Render) :
    (chosen body inverse .body).getD nothing = body :=
  rfl

section Passes

variable {body : Render} {inverse : Option Render} {part : Section} {f : Render} {r : Run}
variable (hchosen : (chosen body inverse part).getD nothing = f)
variable (hf : Render.Oblivious f) (hdisciplined : Render.Disciplined f)

include hchosen hf hdisciplined in
/-- A pass: the helper goes on with what the section comes to in a run of its own. -/
theorem perform_pass
    (inner : Value) (outer : Scope) (metadata : Metadata)
    (next : Except RenderError (List Node) → Action)
    (hr : r.failure = none) :
    let s := outer.push inner metadata
    perform body inverse (.render part inner outer metadata next) r =
      perform body inverse (next (outcome (f.alone r.active s)))
        { r.noteAll (f.passEvents part r.active s) with
          failure := (f.alone r.active s).2.failure } := by
  intro s
  have hactive : (f.alone r.active s).2.active = r.active := (hdisciplined s).active _
  have henter : enter (chosen body inverse part) inner outer metadata r =
      (outcome (f.alone r.active s), (f.alone r.active s).2.after r.log) := by
    rw [enter_getD, hchosen, enter_present hr, eq_alone hf s hr]
    rfl
  rw [perform_render, henter]
  congr 1
  simp [Run.noteAll, Run.note, Run.after, passEvents, hactive]

include hchosen hf hdisciplined in
theorem perform_pass_ok
    {inner : Value} {outer : Scope} {metadata : Metadata}
    (next : Except RenderError (List Node) → Action)
    (hr : r.failure = none)
    (hpass : (f.alone r.active (outer.push inner metadata)).2.failure = none) :
    perform body inverse (.render part inner outer metadata next) r =
      perform body inverse (next (.ok (f.alone r.active (outer.push inner metadata)).1))
        (r.noteAll (f.passEvents part r.active (outer.push inner metadata))) := by
  have hrun : ∀ events, { r.noteAll events with failure := none } = r.noteAll events := fun _ => by
    rw [← hr]
    rfl
  rw [perform_pass hchosen hf hdisciplined inner outer metadata next hr, hpass, hrun, outcome,
    hpass]

include hchosen hf hdisciplined in
theorem perform_pass_error
    {inner : Value} {outer : Scope} {metadata : Metadata} {e : RenderError}
    (next : Except RenderError (List Node) → Action)
    (hr : r.failure = none)
    (hpass : (f.alone r.active (outer.push inner metadata)).2.failure = some e) :
    perform body inverse (.render part inner outer metadata next) r =
      perform body inverse (next (.error e))
        { r.noteAll (f.passEvents part r.active (outer.push inner metadata)) with
          failure := some e } := by
  rw [perform_pass hchosen hf hdisciplined inner outer metadata next hr, hpass, outcome, hpass]

end Passes

section Each

variable {body : Render} (hf : Render.Oblivious body) (hdisciplined : Render.Disciplined body)

include hf hdisciplined in
/-- Passes none of which fails. -/
theorem perform_showEach_ok
    (inverse : Option Render) (outer : Scope) (passes : List (Value × Metadata))
    (shown : List Node) {r : Run}
    (hr : r.failure = none)
    (hpasses : ∀ s ∈ contextsOf outer passes, (body.alone r.active s).2.failure = none) :
    perform body inverse (.showEach outer passes shown) r =
      (.ok (.nodes (shown ++ (contextsOf outer passes).flatMap fun s => (body.alone r.active s).1)),
        r.noteAll ((contextsOf outer passes).flatMap (body.passEvents .body r.active))) := by
  induction passes generalizing shown r with
  | nil =>
      simp [Action.showEach, perform, contextsOf, Run.noteAll]
  | cons p passes ih =>
      have hpass := hpasses _ List.mem_cons_self
      have hrest := fun s hs => hpasses s (List.mem_cons_of_mem _ hs)
      rw [Action.showEach, perform_pass_ok (chosen_body body inverse) hf hdisciplined _ hr hpass]
      refine (ih _ (Run.failure_noteAll hr _) hrest).trans ?_
      simp [contextsOf, Run.noteAll]

include hf hdisciplined in
/-- Passes up to the first that fails. -/
theorem perform_showEach_error
    (inverse : Option Render) (outer : Scope) (passes : List (Value × Metadata))
    (shown : List Node) {r : Run}
    (hr : r.failure = none)
    {front : List Scope} {s : Scope} {back : List Scope} {e : RenderError}
    (hcontexts : contextsOf outer passes = front ++ s :: back)
    (hfront : ∀ t ∈ front, (body.alone r.active t).2.failure = none)
    (hs : (body.alone r.active s).2.failure = some e) :
    perform body inverse (.showEach outer passes shown) r =
      (.error e, { r.noteAll ((front ++ [s]).flatMap (body.passEvents .body r.active)) with
        failure := some e }) := by
  induction passes generalizing shown r front with
  | nil =>
      simp [contextsOf] at hcontexts
  | cons p passes ih =>
      obtain ⟨v, metadata⟩ := p
      cases front with
      | nil =>
          obtain ⟨rfl, -⟩ := List.cons.inj hcontexts
          rw [Action.showEach,
            perform_pass_error (chosen_body body inverse) hf hdisciplined _ hr hs]
          simp [perform, Run.noteAll]
      | cons t front =>
          obtain ⟨rfl, hrest⟩ := List.cons.inj hcontexts
          have hpass := hfront _ List.mem_cons_self
          have hlater := fun t ht => hfront t (List.mem_cons_of_mem _ ht)
          rw [Action.showEach,
            perform_pass_ok (chosen_body body inverse) hf hdisciplined _ hr hpass]
          refine (ih _ (Run.failure_noteAll hr _) hrest hlater hs).trans ?_
          simp [Run.noteAll]

end Each

/-- What a block does with the nodes of its helper. -/
theorem conclude_nodes
    (name : Bytes) (ns : List Node) {r : Run}
    (hr : r.failure = none) :
    conclude name (.ok (.nodes ns)) r = (ns, r) := by
  simp only [conclude, hr]
  rfl

section Block

variable {l : Linkage} {name : Bytes} (arguments : Scope → Arguments) {body : Render}
variable {inverse : Option Render} {s : Scope} {r : Run} {helper : Helper}
variable (hhelper : l.helper name = some helper) (hr : r.failure = none)

include hhelper hr in
theorem goesThrough_of_showEach
    (hf : Render.Oblivious body)
    (hdisciplined : Render.Disciplined body)
    {passes : List (Value × Metadata)}
    (haction : helper (arguments s) s inverse.isSome = .showEach s passes []) :
    GoesThrough .body body (.helper name (arguments s) s) (contextsOf s passes) r
      (block l name arguments body inverse s r) := by
  have hcalled : (r.note (.helper name (arguments s) s)).failure = none := hr
  rw [block_of_helper hr hhelper, haction]
  refine ⟨fun hpasses => ?_, fun front t back e hcontexts hfront ht => ?_⟩
  · rw [perform_showEach_ok hf hdisciplined inverse s passes [] hcalled hpasses,
      conclude_nodes name _ (Run.failure_noteAll hcalled _)]
    simp [Run.noteAll, Run.note]
  · rw [perform_showEach_error hf hdisciplined inverse s passes [] hcalled hcontexts hfront ht,
      conclude_of_failure rfl]
    simp [Run.noteAll, Run.note]

include hhelper hr in
theorem goesThrough_of_showSection
    {part : Section} {f : Render}
    (hchosen : (chosen body inverse part).getD nothing = f)
    (hf : Render.Oblivious f)
    (hdisciplined : Render.Disciplined f)
    {inner : Value}
    (haction : helper (arguments s) s inverse.isSome = .showSection part inner s) :
    GoesThrough part f (.helper name (arguments s) s) [s.push inner []] r
      (block l name arguments body inverse s r) := by
  have hcalled : (r.note (.helper name (arguments s) s)).failure = none := hr
  rw [block_of_helper hr hhelper, haction, Action.showSection]
  refine ⟨fun hpasses => ?_, fun front t back e hcontexts hfront ht => ?_⟩
  · have hpass := hpasses _ List.mem_cons_self
    rw [perform_pass_ok hchosen hf hdisciplined _ hcalled hpass]
    refine (conclude_nodes name _ (Run.failure_noteAll hcalled _)).trans ?_
    simp [Run.noteAll, Run.note]
  · obtain ⟨rfl, rfl, -⟩ : front = [] ∧ s.push inner [] = t ∧ [] = back := by
      cases front <;> simp_all
    rw [perform_pass_error hchosen hf hdisciplined _ hcalled ht]
    refine (conclude_of_failure rfl).trans ?_
    simp [perform, Run.noteAll, Run.note]

end Block

end Render

/-! ## The helper -/

theorem Registry.disciplined_link
    (reg : Registry) (bound : Option Nat) (fuel : Nat) :
    (reg.link bound fuel).Disciplined :=
  reg.linkAs_steps bound fuel ▸ reg.disciplined_linkAs (fun _ => .steps) bound fuel

section Linked

variable (reg : Registry) (bound : Option Nat) (fuel : Nat)

theorem oblivious_renderAll
    (ops : List Op) :
    Render.Oblivious (Op.renderAll (reg.link bound fuel) ops) :=
  (Oblivious.congruence (reg.oblivious_link bound fuel)).ops ops

theorem disciplined_renderAll
    (ops : List Op) :
    Render.Disciplined (Op.renderAll (reg.link bound fuel) ops) :=
  (Disciplined.congruence (reg.disciplined_link bound fuel)).ops ops

theorem oblivious_renderInverse
    (inverse : Option (List Op)) :
    Render.Oblivious ((Op.renderInverse (reg.link bound fuel) inverse).getD Render.nothing) := by
  cases inverse with
  | none =>
      exact fun _ => .unchanged []
  | some ops =>
      exact oblivious_renderAll reg bound fuel ops

theorem disciplined_renderInverse
    (inverse : Option (List Op)) :
    Render.Disciplined ((Op.renderInverse (reg.link bound fuel) inverse).getD Render.nothing) := by
  cases inverse with
  | none =>
      exact fun _ => .unchanged []
  | some ops =>
      exact disciplined_renderAll reg bound fuel ops

/-- What a step fails with is what it and the steps behind it come to. -/
theorem outcome_renderAll_of_failure
    {step : Op} {s : Scope} {r : Run} {e : RenderError}
    (h : (Op.render (reg.link bound fuel) step s r).2.failure = some e)
    (rest : List Op) :
    outcome (Op.renderAll (reg.link bound fuel) (step :: rest) s r) = .error e := by
  have hrest := (disciplined_renderAll reg bound fuel rest s).halted _ e h
  have hfailure : (Op.renderAll (reg.link bound fuel) (step :: rest) s r).2.failure = some e := by
    simp only [Op.renderAll, Render.append]
    exact (congrArg Run.failure hrest).trans h
  simp only [outcome, hfailure]

end Linked

namespace Helper

theorem eachHelper_list
    {a : Arguments} {items : List Value}
    (h : a.nth 0 = .list items)
    (hitems : items ≠ [])
    (s : Scope) (hasInverse : Bool) :
    eachHelper a s hasInverse = .showEach s (listPasses items) [] := by
  simp [eachHelper, h, Value.truthy, hitems]

theorem eachHelper_record
    {a : Arguments} {fields aliases : List (Bytes × Value)}
    (h : a.nth 0 = .record fields aliases)
    (hfields : fields ≠ [])
    (s : Scope) (hasInverse : Bool) :
    eachHelper a s hasInverse = .showEach s (recordPasses (a.nth 0).entries) [] := by
  have hempty : fields.isEmpty = false := List.isEmpty_eq_false_iff.2 hfields
  simp [eachHelper, h, Value.truthy, hempty]

/-- There is nothing to go through: what counts as false, or a record without fields. -/
theorem eachHelper_nothing
    {a : Arguments}
    (h : (a.nth 0).truthy = false ∨ ∃ aliases, a.nth 0 = .record [] aliases)
    (s : Scope) (hasInverse : Bool) :
    eachHelper a s hasInverse = .showSection .inverse s.data s := by
  rcases h with hfalse | ⟨aliases, hrecord⟩
  · simp [eachHelper, hfalse]
  · simp [eachHelper, hrecord]

theorem eachHelper_other
    {a : Arguments}
    (htruthy : (a.nth 0).truthy = true)
    (hlist : (a.nth 0).kind ≠ .list)
    (hrecord : (a.nth 0).kind ≠ .record)
    (s : Scope) (hasInverse : Bool) :
    eachHelper a s hasInverse = .fail (.notSequence (a.nth 0).kind) := by
  simp only [eachHelper, htruthy, if_true]
  generalize a.nth 0 = v at hlist hrecord
  cases v with
  | list items =>
      exact absurd rfl hlist
  | record fields aliases =>
      exact absurd rfl hrecord
  | null | bool | int | float | text | html | nodes =>
      rfl

end Helper

/-- Going through a sequence.  For a list with items and for a record with fields, `each` renders
its body once per element, in order, in a context of its own with the element in view and the
metadata of its place; what the body calls, other blocks and passes of their own included, makes no
difference.  If there is nothing to go through, the `else` section is rendered once over the value
that the caller has in view; any other value is no sequence.  A failure ends the block, and whatever
is rendered behind it or done by the helpers around it keeps that failure.  The helpers that the body
calls depend on their arguments, their contexts and what their sections give alone; one that keeps a
state of its own can make a pass differ from what its context says. -/
theorem each_goes_through_in_order
    {reg : Registry}
    (heach : reg.helper (utf8 "each") = some Helper.eachHelper)
    (bound : Option Nat) (fuel : Nat)
    (arguments : List Input) (named : List (Bytes × Input)) (body : List Op)
    (inverse : Option (List Op)) (synthetic : Bool) (s : Scope) {r : Run}
    (hr : r.failure = none) :
    let l := reg.link bound fuel
    let step := Op.block (utf8 "each") arguments named body inverse synthetic
    let a : Arguments := ⟨arguments.map (Operand.value s), namedValues s named⟩
    let call := Event.helper (utf8 "each") a s
    let result := Op.render l step s r
    (∀ items, a.nth 0 = .list items → items ≠ [] →
      ∃ contexts, PassContexts s (items.map fun v => (none, v)) contexts ∧
        GoesThrough .body (Op.renderAll l body) call contexts r result) ∧
    (∀ fields aliases, a.nth 0 = .record fields aliases → fields ≠ [] →
      ∃ contexts, PassContexts s ((a.nth 0).entries.map fun e => (some e.1, e.2)) contexts ∧
        GoesThrough .body (Op.renderAll l body) call contexts r result) ∧
    (((a.nth 0).truthy = false ∨ ∃ aliases, a.nth 0 = .record [] aliases) →
      GoesThrough .inverse ((Op.renderInverse l inverse).getD Render.nothing) call
        [s.push s.data []] r result) ∧
    ((a.nth 0).truthy = true → (a.nth 0).kind ≠ .list → (a.nth 0).kind ≠ .record →
      result = ([], (r.note call).fail (.within (utf8 "each") (.notSequence (a.nth 0).kind)))) ∧
    (∀ e, result.2.failure = some e →
      (∀ rest, outcome (Op.renderAll l (step :: rest) s r) = .error e) ∧
      ∀ body' inverse' action, (Render.perform body' inverse' action result.2).2.failure =
        some e) := by
  intro l step a call result
  have hhelper : l.helper (utf8 "each") = some Helper.eachHelper := by
    rw [reg.helper_link]
    exact heach
  have hbody := oblivious_renderAll reg bound fuel body
  have hbody' := disciplined_renderAll reg bound fuel body
  let evaluated : Scope → Arguments := fun s =>
    ⟨arguments.map (Operand.value s), namedValues s named⟩
  have hresult : result = Render.block l (utf8 "each") evaluated (Op.renderAll l body)
      (Op.renderInverse l inverse) s r := by
    simp only [result, step, Op.render]
    rfl
  refine ⟨?_, ?_, ?_, ?_, ?_⟩
  · intro items hitems hne
    refine ⟨_, passContexts_list s items, ?_⟩
    rw [hresult]
    exact Render.goesThrough_of_showEach evaluated hhelper hr hbody hbody'
      (Helper.eachHelper_list hitems hne s _)
  · intro fields aliases hfields hne
    refine ⟨_, passContexts_record s _, ?_⟩
    rw [hresult]
    exact Render.goesThrough_of_showEach evaluated hhelper hr hbody hbody'
      (Helper.eachHelper_record hfields hne s _)
  · intro hnothing
    rw [hresult]
    have hchosen : (Render.chosen (Op.renderAll l body) (Op.renderInverse l inverse) .inverse).getD
        Render.nothing = (Op.renderInverse l inverse).getD Render.nothing := rfl
    exact Render.goesThrough_of_showSection evaluated hhelper hr hchosen
      (oblivious_renderInverse reg bound fuel inverse)
      (disciplined_renderInverse reg bound fuel inverse)
      (Helper.eachHelper_nothing hnothing s _)
  · intro htruthy hlist hrecord
    rw [hresult, Render.block_of_helper hr hhelper,
      Helper.eachHelper_other htruthy hlist hrecord s _]
    rfl
  · intro e he
    exact ⟨outcome_renderAll_of_failure reg bound fuel he, fun body' inverse' action =>
      Render.failure_perform_of_failure body' inverse' action he⟩

/-- The cells of a row with the number of the row, their number in it, and what they hold. -/
def gridSample : List Op :=
  let cell : List Op := [.interpolation { hops := 1, metadata := some (utf8 "index") },
    .literal (utf8 "."), .interpolation { metadata := some (utf8 "index") }, .literal (utf8 "="),
    .interpolation {}, .literal (utf8 " ")]
  [.block (utf8 "each") [.path {}] [] cell none false]

/-- Rows of cells: the passes over the cells of a row are part of the pass over the row. -/
theorem each_goes_through_grid :
    let reg : Registry := ⟨fun name => Helper.builtins.lookup name, fun _ => none⟩
    let l := reg.link none 0
    let rows := [Value.list [.text (utf8 "a"), .text (utf8 "b")], .list [.text (utf8 "c")]]
    let s := Scope.root (.list rows)
    let step := Op.block (utf8 "each") [.path {}] [] gridSample none false
    Node.textOf (Op.render l step s {}).1 = utf8 "0.0=a 0.1=b 1.0=c " ∧
    ∃ contexts, PassContexts s (rows.map fun v => (none, v)) contexts ∧
      GoesThrough .body (Op.renderAll l gridSample)
        (.helper (utf8 "each") ⟨[.list rows], []⟩ s) contexts {} (Op.render l step s {}) := by
  intro reg l rows s step
  have heach : reg.helper (utf8 "each") = some Helper.eachHelper := rfl
  have hgrid := (each_goes_through_in_order heach none 0 [.path {}] [] gridSample none false s
    (r := {}) rfl).1 rows rfl (List.cons_ne_nil _ _)
  exact ⟨by decide +kernel, hgrid⟩

end Stencil
