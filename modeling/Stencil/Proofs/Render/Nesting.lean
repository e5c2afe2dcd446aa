import Stencil.Proofs.Compile.Matching
import Stencil.Proofs.Render.Builtins
import Stencil.Proofs.Render.Discipline

/-!
# The contexts of steps

A step that is nested in some blocks of its template is run in as many contexts more than the one
that the template was called in, as long as helpers render their sections inside of the contexts
that they were called in.  Together with the check of paths at compile time this means that no path
climbs out of its template.

Whether a step is run in some contexts is seen with a monitor, which may replace what steps do: the
step is run there when a monitor that acts there alone changes the run.

Algorithm: a monitor that is quiet wherever the contexts fit the place of the step is quiet all
along.  One step hands the contexts on to the steps below it, and helpers and partials begin their
sections and programs in contexts that fit again.

Results: `Helper.keepsScope_builtins`, `Registry.monitored_run` and `contexts_fit_of_visits`.
-/

namespace Stencil

/-- A step about to be run: the data that its template was called with, how many blocks of the
template are around it, the step, and the contexts. -/
structure Visit where
  root : Value
  depth : Nat
  op : Op
  scope : Scope

/-- What happens at a step, given what the step does. -/
abbrev Monitor := Visit → (Run → List Node × Run) → Run → List Node × Run

/-! ## Monitored runs -/

mutual

/-- What a step renders under a monitor.  The sections of a block are one block deeper. -/
def Op.monitored (m : Monitor) (l : Linkage) (root : Value) (depth : Nat) (op : Op) : Render :=
  fun s => m ⟨root, depth, op, s⟩ <|
    match op with
    | .literal v => fun r => ([.text v], r)
    | .interpolation p => fun r => ((s.lookup p).display, r)
    | .element name attributes children => fun r =>
      let (as, r) := Op.monitoredAttributes m l root depth attributes s r
      let (tag, r) := Op.monitoredAll m l root depth name s r
      let (ns, r) := Op.monitoredAll m l root depth children s r
      ([.element (Node.textOf tag) as ns], r)
    | .block name arguments named body inverse _ =>
      Render.block l name (fun s => ⟨arguments.map (Operand.value s), namedValues s named⟩)
        (Op.monitoredAll m l root (depth + 1) body)
        (Op.monitoredInverse m l root (depth + 1) inverse) s
    | .inclusion name context parameters =>
      Render.inclusion l name (context.elim s.data s.lookup) (namedValues s parameters)
    | .unknown => Render.nothing s

/-- What steps render one after the other under a monitor. -/
def Op.monitoredAll (m : Monitor) (l : Linkage) (root : Value) (depth : Nat) : List Op → Render
  | [] => Render.nothing
  | op :: rest =>
    Render.append (Op.monitored m l root depth op) (Op.monitoredAll m l root depth rest)

/-- The attributes of an element under a monitor. -/
def Op.monitoredAttributes (m : Monitor) (l : Linkage) (root : Value) (depth : Nat) :
    List (Bytes × List Op) → Scope → Run → List (Bytes × Bytes) × Run
  | [], _, r => ([], r)
  | (key, value) :: rest, s, r =>
    let (ns, r) := Op.monitoredAll m l root depth value s r
    let (as, r) := Op.monitoredAttributes m l root depth rest s r
    ((key, Node.textOf ns) :: as, r)

/-- What the section behind an `else` renders under a monitor. -/
def Op.monitoredInverse (m : Monitor) (l : Linkage) (root : Value) (depth : Nat) :
    Option (List Op) → Option Render
  | none => none
  | some ops => some (Op.monitoredAll m l root depth ops)

end

/-- What programs can call when partials run under a monitor as well.  The root data of a partial is
what it is called with. -/
def Registry.linkMonitored (reg : Registry) (m : Monitor) (bound : Option Nat) :
    (fuel : Nat) → Linkage
  | 0 => reg.link bound 0
  | fuel + 1 =>
    { helper := reg.helper
      inclusion := fun name => (reg.partialOps name).map fun ops s =>
        Op.monitoredAll m (reg.linkMonitored m bound fuel) s.data 0 ops s
      bound := bound }

/-- A step is run at a place: some monitor that lets all other steps be changes the run. -/
def Registry.Visits (reg : Registry) (bound : Option Nat) (fuel : Nat) (ops : List Op)
    (data : Value) (v : Visit) : Prop :=
  ∃ m : Monitor, (∀ w ≠ v, ∀ f, m w f = f) ∧
    Op.monitoredAll m (reg.linkMonitored m bound fuel) data 0 ops (Scope.root data) {} ≠
      Op.renderAll (reg.link bound fuel) ops (Scope.root data) {}

/-! ## Helpers that keep their contexts -/

/-- Every section is rendered inside of the contexts `s`, whatever came of those before. -/
def Action.KeepsScope (s : Scope) : Action → Prop
  | .done _ => True
  | .fail _ => True
  | .render _ _ outer _ next => outer = s ∧ ∀ outcome, (next outcome).KeepsScope s

/-- A helper that renders its sections inside of the contexts that it is called in. -/
def Helper.KeepsScope (helper : Helper) : Prop :=
  ∀ arguments s hasInverse, (helper arguments s hasInverse).KeepsScope s

theorem Action.keepsScope_showSection
    (part : Section) (inner : Value) (s : Scope) :
    (Action.showSection part inner s).KeepsScope s := by
  refine ⟨rfl, fun outcome => ?_⟩
  cases outcome <;> trivial

theorem Action.keepsScope_showEach
    (s : Scope) (passes : List (Value × Metadata)) (shown : List Node) :
    (Action.showEach s passes shown).KeepsScope s := by
  induction passes generalizing shown with
  | nil =>
      trivial
  | cons pass rest ih =>
      refine ⟨rfl, fun outcome => ?_⟩
      cases outcome with
      | ok nodes =>
          exact ih (shown ++ nodes)
      | error e =>
          trivial

/-- The helpers that every engine has keep their contexts. -/
theorem Helper.keepsScope_builtins :
    ∀ entry ∈ Helper.builtins, Helper.KeepsScope entry.2 :=
  fun _ hentry a s hasInverse =>
    builtin_cases (motive := Action.KeepsScope s) hentry a s hasInverse
      (fun part => Action.keepsScope_showSection part s.data s)
      (Action.keepsScope_showSection .body (a.nth 0) s)
      (fun _ _ => Action.keepsScope_showEach s _ [])
      (fun _ _ _ => Action.keepsScope_showEach s _ []) fun _ => trivial

/-! ## Contexts that fit -/

/-- The path that an operand looks up, if it is one. -/
def Operand.paths : Input → List Path
  | .path p => [p]
  | .literal _ => []

/-- The paths that a step looks up itself. -/
def Op.paths : Op → List Path
  | .interpolation p => [p]
  | .block _ arguments named _ _ _ =>
    arguments.flatMap Operand.paths ++ named.flatMap fun a => Operand.paths a.2
  | .inclusion _ context parameters =>
    context.toList ++ parameters.flatMap fun a => Operand.paths a.2
  | .literal _ | .element .. | .unknown => []

/-- Contexts with `depth` levels above the one that a template was called in. -/
structure Scope.Nested (root : Value) (depth : Nat) (s : Scope) : Prop where
  levels : s.length = depth + 1
  rooted : Scope.root root <:+ s

/-- The contexts are those of the place of the step, and every path of the step leads to one. -/
structure Visit.Fits (v : Visit) : Prop where
  nested : v.scope.Nested v.root v.depth
  climbs : ∀ p ∈ v.op.paths, v.scope.drop p.hops.toNat ≠ []

theorem Scope.nested_root
    (data : Value) :
    (Scope.root data).Nested data 0 :=
  ⟨rfl, List.suffix_refl _⟩

theorem Scope.Nested.push
    {root : Value} {depth : Nat} {s : Scope}
    (h : s.Nested root depth)
    (inner : Value) (metadata : Metadata) :
    (s.push inner metadata).Nested root (depth + 1) where
  levels := congrArg (· + 1) h.levels
  rooted := h.rooted.trans (List.suffix_cons _ s)

theorem Operand.hops_le_of_mem_paths
    {depth : Nat} {a : Input} {p : Path}
    (ha : Operand.Placed depth a)
    (hp : p ∈ Operand.paths a) :
    p.hops ≤ depth := by
  cases a with
  | path q =>
      obtain rfl := List.mem_singleton.1 hp
      exact ha
  | literal c =>
      cases hp

theorem Op.hops_le_of_mem_paths
    {depth : Nat} {op : Op} {p : Path}
    (hop : op.Placed depth)
    (hp : p ∈ op.paths) :
    p.hops ≤ depth := by
  cases op with
  | literal | element | unknown =>
      cases hp
  | interpolation q =>
      obtain rfl := List.mem_singleton.1 hp
      exact hop
  | block name arguments named body inverse synthetic =>
      obtain ⟨harguments, hnamed, _, _⟩ := hop
      rcases List.mem_append.1 hp with hp | hp
      · obtain ⟨a, ha, hpa⟩ := List.mem_flatMap.1 hp
        exact Operand.hops_le_of_mem_paths (harguments a ha) hpa
      · obtain ⟨a, ha, hpa⟩ := List.mem_flatMap.1 hp
        exact Operand.hops_le_of_mem_paths (hnamed a ha) hpa
  | inclusion name context parameters =>
      obtain ⟨hcontext, hparameters⟩ := hop
      rcases List.mem_append.1 hp with hp | hp
      · exact hcontext p (Option.mem_toList.1 hp)
      · obtain ⟨a, ha, hpa⟩ := List.mem_flatMap.1 hp
        exact Operand.hops_le_of_mem_paths (hparameters a ha) hpa

/-- The check of paths at compile time makes the contexts of a place fit. -/
theorem Scope.Nested.fits
    {root : Value} {depth : Nat} {op : Op} {s : Scope}
    (hs : s.Nested root depth)
    (hop : op.Placed depth) :
    (Visit.mk root depth op s).Fits := by
  refine ⟨hs, fun p hp hnone => ?_⟩
  have hhops := Op.hops_le_of_mem_paths hop hp
  have hlength := List.drop_eq_nil_iff.1 hnone
  have hlevels := hs.levels
  simp only at hlength
  omega

/-! ## Quiet monitors -/

/-- Renders that do the same one context further in than `s`. -/
def Render.SameInside (s : Scope) (f f' : Render) : Prop :=
  ∀ inner metadata, f (s.push inner metadata) = f' (s.push inner metadata)

/-- A linkage with the same helpers, the same bound, and partials that do the same in a context of
their own. -/
structure Linkage.SameAtRoot (l l' : Linkage) : Prop where
  helper : l.helper = l'.helper
  bound : l.bound = l'.bound
  inclusion : ∀ name, Option.Rel (fun f f' => ∀ data, f (Scope.root data) = f' (Scope.root data))
    (l.inclusion name) (l'.inclusion name)

namespace Render

theorem enter_congr
    {part part' : Option Render} {s : Scope}
    (h : Option.Rel (SameInside s) part part')
    (inner : Value) (metadata : Metadata) (r : Run) :
    enter part inner s metadata r = enter part' inner s metadata r := by
  cases h with
  | none =>
      rfl
  | some hf =>
      cases hr : r.failure with
      | some e =>
          rw [enter_of_failure hr, enter_of_failure hr]
      | none =>
          rw [enter_present hr, enter_present hr, hf inner metadata]

theorem perform_congr
    {body body' : Render} {inverse inverse' : Option Render} {s : Scope}
    (hbody : SameInside s body body')
    (hinverse : Option.Rel (SameInside s) inverse inverse')
    {action : Action}
    (hkeeps : action.KeepsScope s)
    (r : Run) :
    perform body inverse action r = perform body' inverse' action r := by
  induction action generalizing r with
  | done result =>
      rfl
  | fail e =>
      rfl
  | render part inner outer metadata next ih =>
      obtain ⟨rfl, hnext⟩ := hkeeps
      rw [perform_render, perform_render,
        enter_congr (rel_chosen hbody hinverse part) inner metadata r]
      exact ih _ (hnext _) _

theorem block_congr
    {l l' : Linkage} {name : Bytes} {body body' : Render} {inverse inverse' : Option Render}
    {s : Scope}
    (hhelper : l.helper = l'.helper)
    (hkeeps : ∀ helper, l.helper name = some helper → helper.KeepsScope)
    (arguments : Scope → Arguments)
    (hbody : SameInside s body body')
    (hinverse : Option.Rel (SameInside s) inverse inverse') :
    block l name arguments body inverse s = block l' name arguments body' inverse' s := by
  have hisSome : inverse.isSome = inverse'.isSome := by
    cases hinverse <;> rfl
  funext r
  cases hfound : l.helper name with
  | none =>
      simp only [block, ← hhelper, hfound]
  | some helper =>
      have haction := hkeeps helper hfound (arguments s) s inverse.isSome
      have hperform := perform_congr hbody hinverse haction (r.note (.helper name (arguments s) s))
      simp only [block, ← hhelper, hfound, ← hisSome, hperform]

theorem inclusion_congr
    {l l' : Linkage}
    (hl : l.SameAtRoot l')
    (name : Bytes) (base : Value) (parameters : List (Bytes × Value)) :
    inclusion l name base parameters = inclusion l' name base parameters := by
  funext r
  have hname := hl.inclusion name
  generalize hf : l.inclusion name = found at hname
  generalize hf' : l'.inclusion name = found' at hname
  cases hname with
  | none =>
      simp only [inclusion, hf, hf']
  | some hsame =>
      simp only [inclusion, hf, hf', hl.bound, hsame]

end Render

/-- A monitor that lets every step be whose contexts fit. -/
def Monitor.Quiet (m : Monitor) : Prop := ∀ v : Visit, v.Fits → ∀ f, m v f = f

section Quiet

variable {m : Monitor} {l l' : Linkage}

mutual

/-- One step: a quiet monitor lets it be, and its contexts carry over to the steps below. -/
theorem Op.monitored_eq
    (hm : m.Quiet)
    (hl : l.SameAtRoot l')
    (hkeeps : ∀ name helper, l.helper name = some helper → helper.KeepsScope) :
    ∀ (op : Op) {root : Value} {depth : Nat} {s : Scope},
      op.Placed depth → s.Nested root depth →
      Op.monitored m l root depth op s = Op.render l' op s
  | .literal v, root, depth, s, hop, hs => by
      rw [Op.monitored, hm _ (hs.fits hop)]
      simp only [Op.render]
  | .interpolation p, root, depth, s, hop, hs => by
      rw [Op.monitored, hm _ (hs.fits hop)]
      simp only [Op.render]
  | .element name attributes children, root, depth, s, hop, hs => by
      rw [Op.monitored, hm _ (hs.fits hop)]
      obtain ⟨hname, hattributes, hchildren⟩ := hop
      have hattributes := Op.monitoredAttributes_eq hm hl hkeeps attributes hattributes hs
      have hname := Op.monitoredAll_eq hm hl hkeeps name hname hs
      have hchildren := Op.monitoredAll_eq hm hl hkeeps children hchildren hs
      simp only [Op.render, hattributes, hname, hchildren]
  | .block name arguments named body inverse synthetic, root, depth, s, hop, hs => by
      rw [Op.monitored, hm _ (hs.fits hop)]
      obtain ⟨_, _, hbody, hinverse⟩ := hop
      have hbody : Render.SameInside s (Op.monitoredAll m l root (depth + 1) body)
          (Op.renderAll l' body) := fun inner metadata =>
        Op.monitoredAll_eq hm hl hkeeps body hbody (hs.push inner metadata)
      have hinverse := Op.monitoredInverse_eq hm hl hkeeps inverse hinverse hs
      simp only [Op.render]
      exact Render.block_congr hl.helper (hkeeps name) _ hbody hinverse
  | .inclusion name context parameters, root, depth, s, hop, hs => by
      rw [Op.monitored, hm _ (hs.fits hop)]
      simp only [Op.render]
      exact Render.inclusion_congr hl name _ _
  | .unknown, root, depth, s, hop, hs => by
      rw [Op.monitored, hm _ (hs.fits hop)]
      simp only [Op.render]

theorem Op.monitoredAll_eq
    (hm : m.Quiet)
    (hl : l.SameAtRoot l')
    (hkeeps : ∀ name helper, l.helper name = some helper → helper.KeepsScope) :
    ∀ (ops : List Op) {root : Value} {depth : Nat} {s : Scope},
      Op.AllPlaced depth ops → s.Nested root depth →
      Op.monitoredAll m l root depth ops s = Op.renderAll l' ops s
  | [], root, depth, s, _, _ => by
      rw [Op.monitoredAll, Op.renderAll]
  | op :: rest, root, depth, s, hops, hs => by
      have hop := Op.monitored_eq hm hl hkeeps op hops.1 hs
      have hrest := Op.monitoredAll_eq hm hl hkeeps rest hops.2 hs
      funext r
      simp only [Op.monitoredAll, Op.renderAll, Render.append, hop, hrest]

theorem Op.monitoredAttributes_eq
    (hm : m.Quiet)
    (hl : l.SameAtRoot l')
    (hkeeps : ∀ name helper, l.helper name = some helper → helper.KeepsScope) :
    ∀ (attributes : List (Bytes × List Op)) {root : Value} {depth : Nat} {s : Scope},
      Op.AttributesPlaced depth attributes → s.Nested root depth →
      Op.monitoredAttributes m l root depth attributes s = Op.renderAttributes l' attributes s
  | [], root, depth, s, _, _ => by
      funext r
      simp only [Op.monitoredAttributes, Op.renderAttributes]
  | (key, value) :: rest, root, depth, s, hattributes, hs => by
      have hvalue := Op.monitoredAll_eq hm hl hkeeps value hattributes.1 hs
      have hrest := Op.monitoredAttributes_eq hm hl hkeeps rest hattributes.2 hs
      funext r
      simp only [Op.monitoredAttributes, Op.renderAttributes, hvalue, hrest]

theorem Op.monitoredInverse_eq
    (hm : m.Quiet)
    (hl : l.SameAtRoot l')
    (hkeeps : ∀ name helper, l.helper name = some helper → helper.KeepsScope) :
    ∀ (inverse : Option (List Op)) {root : Value} {depth : Nat} {s : Scope},
      Op.InversePlaced (depth + 1) inverse → s.Nested root depth →
      Option.Rel (Render.SameInside s) (Op.monitoredInverse m l root (depth + 1) inverse)
        (Op.renderInverse l' inverse)
  | none, root, depth, s, _, _ => by
      simp only [Op.monitoredInverse, Op.renderInverse]
      exact .none
  | some ops, root, depth, s, hops, hs => by
      simp only [Op.monitoredInverse, Op.renderInverse]
      exact .some fun inner metadata =>
        Op.monitoredAll_eq hm hl hkeeps ops hops (hs.push inner metadata)

end

end Quiet

theorem Compile.allPlaced_of_forest
    {names : Names} {trees : List Tree} {ops : List Op}
    (h : Compile.forest names trees = .ok ops) :
    Op.AllPlaced 0 ops :=
  (Compile.nodes_eq_ok_iff.1 h).allPlaced

namespace Registry

variable {reg : Registry} {m : Monitor}

theorem helper_linkMonitored
    (bound : Option Nat) (fuel : Nat) :
    (reg.linkMonitored m bound fuel).helper = reg.helper := by
  cases fuel <;> rfl

/-- Partials begin in a context of their own, which fits the steps that no block is around. -/
theorem sameAtRoot_linkMonitored
    (hm : m.Quiet)
    (hpartials : ∀ name ops, reg.partialOps name = some ops → Op.AllPlaced 0 ops)
    (hkeeps : ∀ name helper, reg.helper name = some helper → helper.KeepsScope)
    (bound : Option Nat) (fuel : Nat) :
    (reg.linkMonitored m bound fuel).SameAtRoot (reg.link bound fuel) := by
  induction fuel with
  | zero =>
      refine ⟨rfl, rfl, fun name => ?_⟩
      simp only [linkMonitored, link]
      cases reg.partialOps name with
      | none =>
          exact .none
      | some ops =>
          exact .some fun data => rfl
  | succ fuel ih =>
      refine ⟨rfl, rfl, fun name => ?_⟩
      have hhelpers : ∀ name helper, (reg.linkMonitored m bound fuel).helper name = some helper →
          helper.KeepsScope := by
        rw [helper_linkMonitored]
        exact hkeeps
      simp only [linkMonitored, link]
      cases hops : reg.partialOps name with
      | none =>
          exact .none
      | some ops =>
          exact .some fun data =>
            Op.monitoredAll_eq hm ih hhelpers ops (hpartials name ops hops) (Scope.nested_root data)

/-- A whole run: a quiet monitor lets it be. -/
theorem monitored_run
    (hm : m.Quiet)
    (hpartials : ∀ name ops, reg.partialOps name = some ops → Op.AllPlaced 0 ops)
    (hkeeps : ∀ name helper, reg.helper name = some helper → helper.KeepsScope)
    {ops : List Op}
    (hops : Op.AllPlaced 0 ops)
    (bound : Option Nat) (fuel : Nat) (data : Value) :
    Op.monitoredAll m (reg.linkMonitored m bound fuel) data 0 ops (Scope.root data) =
      Op.renderAll (reg.link bound fuel) ops (Scope.root data) := by
  have hl := sameAtRoot_linkMonitored hm hpartials hkeeps bound fuel
  refine Op.monitoredAll_eq hm hl ?_ ops hops (Scope.nested_root data)
  rw [helper_linkMonitored]
  exact hkeeps

end Registry

/-- In a run of a compiled program that calls compiled partials and helpers that keep their
contexts, a step with `depth` blocks of its template around it is run in `depth + 1` contexts, the
outermost of which is the one that the template was called in, and no path of the step climbs past
that one. -/
theorem contexts_fit_of_visits
    (names : Names) (trees : List Tree) (ops : List Op)
    (hbuild : Compile.forest names trees = .ok ops)
    (reg : Registry)
    (hpartials : ∀ name ops, reg.partialOps name = some ops →
      ∃ names trees, Compile.forest names trees = .ok ops)
    (hkeeps : ∀ name helper, reg.helper name = some helper → helper.KeepsScope)
    (bound : Option Nat) (fuel : Nat) (data : Value) (v : Visit)
    (hv : reg.Visits bound fuel ops data v) :
    v.scope.length = v.depth + 1 ∧ Scope.root v.root <:+ v.scope ∧
      ∀ p ∈ v.op.paths, v.scope.drop p.hops.toNat ≠ [] := by
  have hplaced : ∀ name ops, reg.partialOps name = some ops → Op.AllPlaced 0 ops := by
    intro name ops hops
    obtain ⟨names, trees, htrees⟩ := hpartials name ops hops
    exact Compile.allPlaced_of_forest htrees
  obtain ⟨m, hothers, hchanges⟩ := hv
  have hfits : v.Fits := by
    by_contra hunfit
    -- The monitor acts at a place that does not fit only, so it is quiet.
    have hquiet : m.Quiet := fun w hw f => hothers w (fun hwv => hunfit (hwv ▸ hw)) f
    apply hchanges
    rw [Registry.monitored_run hquiet hplaced hkeeps (Compile.allPlaced_of_forest hbuild)]
  exact ⟨hfits.nested.levels, hfits.nested.rooted, hfits.climbs⟩

/-- A block around a path that climbs out of it. -/
def climbingSample : List Tree :=
  [.text ⟨0, 33⟩ [⟨⟨0, 11⟩, .opening (utf8 "unless") [] false⟩,
    ⟨⟨11, 19⟩, .interpolation (.parent 1 .this)⟩, ⟨⟨19, 33⟩, .closing (utf8 "unless")⟩]]

/-- The step in the block of the sample, run on no data. -/
def climbingVisit : Visit :=
  ⟨.null, 1, .interpolation { hops := 1 }, [⟨.null, []⟩, ⟨.null, []⟩]⟩

/-- The program of the sample. -/
def climbingOps : List Op := [.block (utf8 "unless") [] [] [climbingVisit.op] none false]

/-- The helpers that every engine has, and no partials. -/
def Registry.plain : Registry := ⟨fun name => Helper.builtins.lookup name, fun _ => none⟩

theorem Registry.visits_climbingVisit :
    Registry.plain.Visits none 0 climbingOps .null climbingVisit := by
  classical
  let m : Monitor := fun w f => if w = climbingVisit then fun r => ([], r.fail .exhausted) else f
  let l := Registry.plain.linkMonitored m none 0
  have houter : ∀ op f, m ⟨.null, 0, op, Scope.root .null⟩ f = f := fun op f =>
    if_neg fun heq => by cases congrArg Visit.depth heq
  have hinner : Op.monitored m l .null 1 climbingVisit.op ((Scope.root .null).push .null []) =
      fun r => ([], r.fail .exhausted) := by
    unfold Op.monitored
    exact if_pos rfl
  have hhelper : l.helper (utf8 "unless") = some Helper.unlessHelper := rfl
  have haction : Helper.unlessHelper {} (Scope.root .null) false =
      .showSection .body .null (Scope.root .null) := rfl
  -- The monitor makes the run fail, which it does not do by itself.
  have hfails : (Op.monitoredAll m l .null 0 climbingOps (Scope.root .null) {}).2.failure =
      some .exhausted := by
    simp [climbingOps, Op.monitoredAll, Op.monitored, Op.monitoredInverse, houter, hinner, hhelper,
      haction, namedValues, Render.append, Render.nothing, Render.block, Render.perform,
      Render.enter, Action.showSection, Run.note, Run.fail]
  have hgoes : (Op.renderAll (Registry.plain.link none 0) climbingOps (Scope.root .null)
      {}).2.failure = none := rfl
  refine ⟨m, fun w hw f => if_neg hw, fun hsame => ?_⟩
  rw [hsame, hgoes] at hfails
  cases hfails

theorem Registry.keepsScope_plain
    (name : Bytes) (helper : Helper)
    (h : Registry.plain.helper name = some helper) :
    helper.KeepsScope :=
  Helper.keepsScope_builtins (name, helper) (Fields.mem_of_lookup h)

theorem contexts_fit_climbingVisit :
    Registry.plain.Visits none 0 climbingOps .null climbingVisit ∧
      climbingVisit.scope.length = 1 + 1 ∧ Scope.root .null <:+ climbingVisit.scope ∧
      climbingVisit.scope.drop 1 ≠ [] := by
  have hfit := contexts_fit_of_visits Names.any climbingSample climbingOps rfl Registry.plain
    (fun name ops hops => by cases hops) Registry.keepsScope_plain none 0 .null climbingVisit
    Registry.visits_climbingVisit
  exact ⟨Registry.visits_climbingVisit, hfit.1, hfit.2.1, hfit.2.2 _ (List.mem_singleton.2 rfl)⟩

end Stencil
