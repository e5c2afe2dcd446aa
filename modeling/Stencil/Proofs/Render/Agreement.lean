import Stencil.Proofs.Render.Contract

/-!
# The two ways to run a program agree

A program run step by step and the code that it is emitted as give the same nodes, or both fail.
They do not go through an element in the same order, so where several calls fail the failures may
differ, and with them what the helpers around them do.

Algorithm: two runs are abreast when as many partial calls are active in both and either both have
failed or none.  Computations agree when they keep runs abreast and give the same unless they fail.
By the discipline of runs a failed run stays as it is, so one computation may be put before or
behind another.  A relation that the building blocks of rendering respect holds between a program and
its code as soon as it allows to exchange the name and the attributes of the elements that occur.

Results: `Congruence.ops_codes` for relations that allow this, `Agree.swap` for the order, and
`outcomes_agree_of_compiled` for programs.
-/

namespace Stencil

/-- Two runs that have come equally far. -/
structure Run.Abreast (r r' : Run) : Prop where
  active : r.active = r'.active
  failed : r.failure = none ↔ r'.failure = none

/-- Two results in runs abreast, the same unless the runs have failed. -/
structure Alike {α : Type} (x x' : α × Run) : Prop where
  abreast : x.2.Abreast x'.2
  same : x.2.failure = none → x.1 = x'.1

/-- Two computations by the rules that keep runs abreast and give the same unless they fail. -/
structure Agree {α : Type} (f f' : Run → α × Run) : Prop where
  left : Disciplined f
  right : Disciplined f'
  alike : ∀ {r r'}, r.Abreast r' → Alike (f r) (f' r')

/-- Agreement in all contexts. -/
def Render.Agree (f f' : Render) : Prop := ∀ s, Stencil.Agree (f s) (f' s)

theorem Run.Abreast.failed_or
    {r r' : Run}
    (h : r.Abreast r') :
    (r.failure = none ∧ r'.failure = none) ∨
      ∃ e e', r.failure = some e ∧ r'.failure = some e' := by
  cases hr : r.failure with
  | none =>
      exact Or.inl ⟨rfl, h.failed.1 hr⟩
  | some e =>
      cases hr' : r'.failure with
      | none =>
          rw [h.failed.2 hr'] at hr
          cases hr
      | some e' =>
          exact Or.inr ⟨e, e', rfl, rfl⟩

theorem Run.Abreast.of_failed
    {r r' : Run} {e e' : RenderError}
    (hactive : r.active = r'.active)
    (h : r.failure = some e)
    (h' : r'.failure = some e') :
    r.Abreast r' :=
  ⟨hactive, by simp [h, h']⟩

theorem Run.Abreast.of_going
    {r r' : Run}
    (hactive : r.active = r'.active)
    (h : r.failure = none)
    (h' : r'.failure = none) :
    r.Abreast r' :=
  ⟨hactive, by simp [h, h']⟩

theorem Run.Abreast.note
    {r r' : Run}
    (h : r.Abreast r')
    (event event' : Event) :
    (r.note event).Abreast (r'.note event') :=
  ⟨h.active, h.failed⟩

theorem Run.Abreast.fail
    {r r' : Run}
    (h : r.Abreast r')
    (e e' : RenderError) :
    (r.fail e).Abreast (r'.fail e') := by
  rcases h.failed_or with ⟨hr, hr'⟩ | ⟨e₁, e₁', hr, hr'⟩
  · exact .of_failed (by simpa using h.active) (Run.failure_fail hr e) (Run.failure_fail hr' e')
  · rw [Run.fail_of_failure hr, Run.fail_of_failure hr']
    exact h

/-! ## Sequences -/

theorem Agree.unchanged
    {α : Type} (a : α) :
    Agree (fun r => (a, r)) (fun r => (a, r)) where
  left := .unchanged a
  right := .unchanged a
  alike := fun h => ⟨h, fun _ => rfl⟩

/-- A computation by the rules that ends without a failure began without one. -/
theorem Disciplined.going_of_going
    {α : Type} {f : Run → α × Run}
    (hf : Disciplined f)
    {r : Run}
    (h : (f r).2.failure = none) :
    r.failure = none := by
  cases hr : r.failure with
  | none =>
      rfl
  | some e =>
      rw [hf.halted r e hr, hr] at h
      cases h

theorem Agree.seq
    {α β : Type} {f f' : Run → α × Run} {g g' : α → Run → β × Run}
    (hf : Agree f f')
    (hg : ∀ a, Agree (g a) (g' a)) :
    Agree (fun r => g (f r).1 (f r).2) (fun r => g' (f' r).1 (f' r).2) where
  left := hf.left.seq fun a => (hg a).left
  right := hf.right.seq fun a => (hg a).right
  alike := by
    intro r r' h
    obtain ⟨habreast, hsame⟩ := hf.alike h
    rcases habreast.failed_or with ⟨hgoing, _⟩ | ⟨e, e', hfailed, hfailed'⟩
    · rw [← hsame hgoing]
      exact (hg _).alike habreast
    · have hleft := (hg (f r).1).left.halted _ e hfailed
      have hright := (hg (f' r').1).right.halted _ e' hfailed'
      refine ⟨?_, fun hgoing => ?_⟩
      · rw [hleft, hright]
        exact habreast
      · rw [hleft, hfailed] at hgoing
        cases hgoing

theorem Run.Abreast.symm
    {r r' : Run}
    (h : r.Abreast r') :
    r'.Abreast r :=
  ⟨h.active.symm, h.failed.symm⟩

/-- A run that goes on behind a computation is abreast of what it was abreast of before. -/
theorem Run.Abreast.behind
    {α : Type} {f : Run → α × Run} {r r' : Run}
    (h : r.Abreast r')
    (hf : Disciplined f)
    (hgoing : (f r).2.failure = none) :
    (f r).2.Abreast r' := by
  have hr := hf.going_of_going hgoing
  exact .of_going ((hf.active r).trans h.active) hgoing (h.failed.1 hr)

/-- Where two computations succeed one after the other, the second begins abreast of the run before
both, and so does the first behind the other second one. -/
theorem Agree.abreast_across
    {α β : Type} {f f' : Run → α × Run} {g g' : Run → β × Run}
    (hf : Agree f f')
    (hg : Agree g g')
    {r r' : Run}
    (h : r.Abreast r')
    (hgoing : (g (f r).2).2.failure = none) :
    (f r).2.failure = none ∧ (f r).2.Abreast r' ∧ r.Abreast (g' r').2 := by
  have hf₁ := hg.left.going_of_going hgoing
  have hfirst := h.behind hf.left hf₁
  have hg₁ := (hg.alike hfirst).abreast.failed.1 hgoing
  exact ⟨hf₁, hfirst, (h.symm.behind hg.right hg₁).symm⟩

/-- Two computations in either order.  Neither sees whether the other has been made: where both
succeed, each begins abreast of the run before both. -/
theorem Agree.swap
    {α β : Type} {f f' : Run → α × Run} {g g' : Run → β × Run}
    (hf : Agree f f')
    (hg : Agree g g') :
    Agree
      (fun r => (((f r).1, (g (f r).2).1), (g (f r).2).2))
      (fun r => (((f' (g' r).2).1, (g' r).1), (f' (g' r).2).2)) := by
  have hleft : Disciplined fun r => (((f r).1, (g (f r).2).1), (g (f r).2).2) :=
    hf.left.seq fun a => hg.left.seq fun b => .unchanged (a, b)
  have hright : Disciplined fun r => (((f' (g' r).2).1, (g' r).1), (f' (g' r).2).2) :=
    hg.right.seq fun b => hf.right.seq fun a => .unchanged (a, b)
  refine ⟨hleft, hright, fun {r r'} h => ⟨⟨?_, ?_, ?_⟩, ?_⟩⟩
  · rw [hleft.active, hright.active, h.active]
  · intro hgoing
    obtain ⟨hf₁, _, hsecond⟩ := hf.abreast_across hg h hgoing
    exact (hf.alike hsecond).abreast.failed.1 hf₁
  · intro hgoing
    have hg₁ := hf.right.going_of_going hgoing
    have hsecond := (h.symm.behind hg.right hg₁).symm
    have hf₁ := (hf.alike hsecond).abreast.failed.2 hgoing
    exact (hg.alike (h.behind hf.left hf₁)).abreast.failed.2 hg₁
  · intro hgoing
    obtain ⟨hf₁, hfirst, hsecond⟩ := hf.abreast_across hg h hgoing
    exact Prod.ext ((hf.alike hsecond).same hf₁) ((hg.alike hfirst).same hgoing)

/-! ## Calls -/

/-- Two linkages with the same helpers and the same bound whose partials agree. -/
structure Linkage.Agree (l l' : Linkage) : Prop where
  helper : l.helper = l'.helper
  bound : l.bound = l'.bound
  inclusion : ∀ name, Option.Rel Render.Agree (l.inclusion name) (l'.inclusion name)

theorem Render.Agree.disciplined_of_rel
    {part part' : Option Render}
    (h : Option.Rel Render.Agree part part') :
    (∀ f ∈ part, Render.Disciplined f) ∧ ∀ f ∈ part', Render.Disciplined f :=
  ⟨Render.forall_left_of_rel h fun _ _ hagree s => (hagree s).left,
    Render.forall_right_of_rel h fun _ _ hagree s => (hagree s).right⟩

namespace Render

theorem alike_enter
    {part part' : Option Render}
    (hpart : Option.Rel Render.Agree part part')
    (inner : Value) (outer : Scope) (metadata : Metadata)
    {r r' : Run}
    (h : r.Abreast r') :
    Alike (enter part inner outer metadata r) (enter part' inner outer metadata r') := by
  rcases h.failed_or with ⟨hr, hr'⟩ | ⟨e, e', hr, hr'⟩
  · cases hpart with
    | none =>
        rw [enter_missing hr, enter_missing hr']
        exact ⟨h, fun _ => rfl⟩
    | some hf =>
        obtain ⟨habreast, hsame⟩ := (hf (outer.push inner metadata)).alike h
        rw [enter_present hr, enter_present hr']
        refine ⟨habreast, fun hgoing => ?_⟩
        simp only at hgoing
        simp [hgoing, habreast.failed.1 hgoing, hsame hgoing]
  · rw [enter_of_failure hr, enter_of_failure hr']
    refine ⟨h, fun hgoing => ?_⟩
    simp only [hr] at hgoing
    cases hgoing

/-- A helper does the same on both sides until the runs fail.  What it does after that may depend on
the failure, but it leaves both runs failed. -/
theorem alike_perform
    {body body' : Render} {inverse inverse' : Option Render}
    (hbody : Render.Agree body body')
    (hinverse : Option.Rel Render.Agree inverse inverse')
    (action : Action)
    {r r' : Run}
    (h : r.Abreast r') :
    Alike (perform body inverse action r) (perform body' inverse' action r') := by
  obtain ⟨hdisciplined, hdisciplined'⟩ := Render.Agree.disciplined_of_rel hinverse
  induction action generalizing r r' with
  | done result =>
      exact ⟨h, fun _ => rfl⟩
  | fail e =>
      exact ⟨h, fun _ => rfl⟩
  | render part inner outer metadata next ih =>
      obtain ⟨habreast, hsame⟩ :=
        alike_enter (rel_chosen hbody hinverse part) inner outer metadata h
      rw [perform_render, perform_render]
      rcases habreast.failed_or with ⟨hgoing, _⟩ | ⟨e, e', hfailed, hfailed'⟩
      · rw [← hsame hgoing]
        exact ih _ (habreast.note _ _)
      · have hnoted := fun event => (Run.failure_note _ event).trans hfailed
        have hnoted' := fun event => (Run.failure_note _ event).trans hfailed'
        have hend := fun action event =>
          failure_perform_of_failure body inverse action (hnoted event)
        have hend' := fun action event =>
          failure_perform_of_failure body' inverse' action (hnoted' event)
        refine ⟨.of_failed ?_ (hend _ _) (hend' _ _), fun hgoing => ?_⟩
        · rw [active_perform (fun s => (hbody s).left) hdisciplined,
            active_perform (fun s => (hbody s).right) hdisciplined']
          exact habreast.active
        · rw [hend] at hgoing
          cases hgoing

theorem alike_conclude
    (name : Bytes)
    {x x' : Except RenderError Datum × Run}
    (h : Alike x x') :
    Alike (conclude name x.1 x.2) (conclude name x'.1 x'.2) := by
  obtain ⟨habreast, hsame⟩ := h
  rcases habreast.failed_or with ⟨hr, hr'⟩ | ⟨e, e', hr, hr'⟩
  · rw [← hsame hr]
    cases hresult : x.1 with
    | error e =>
        exact ⟨habreast.fail _ _, fun _ => rfl⟩
    | ok d =>
        cases hsplice : d.splice with
        | ok ns =>
            refine ⟨?_, ?_⟩
            · simpa [conclude, hr, hr', hsplice] using habreast
            · simp [conclude, hr, hr', hsplice]
        | error type =>
            refine ⟨?_, ?_⟩
            · simpa [conclude, hr, hr', hsplice] using habreast.fail _ _
            · simp [conclude, hr, hr', hsplice]
  · rw [conclude_of_failure hr, conclude_of_failure hr']
    exact ⟨habreast, fun _ => rfl⟩

theorem agree_block
    {l l' : Linkage}
    (hl : l.Agree l')
    (name : Bytes) (arguments : Scope → Arguments) {body body' : Render}
    {inverse inverse' : Option Render}
    (hbody : Render.Agree body body')
    (hinverse : Option.Rel Render.Agree inverse inverse') :
    Render.Agree (block l name arguments body inverse)
      (block l' name arguments body' inverse') := by
  obtain ⟨hdisciplined, hdisciplined'⟩ := Render.Agree.disciplined_of_rel hinverse
  have hisSome : inverse.isSome = inverse'.isSome := by
    cases hinverse <;> rfl
  intro s
  refine ⟨disciplined_block (fun s => (hbody s).left) hdisciplined s,
    disciplined_block (fun s => (hbody s).right) hdisciplined' s, fun {r r'} h => ?_⟩
  rcases h.failed_or with ⟨hr, hr'⟩ | ⟨e, e', hr, hr'⟩
  · cases hhelper : l.helper name with
    | none =>
        have hhelper' : l'.helper name = none := by rw [← hl.helper, hhelper]
        rw [block_of_unknown hr hhelper, block_of_unknown hr' hhelper']
        exact ⟨h.fail _ _, fun _ => rfl⟩
    | some helper =>
        have hhelper' : l'.helper name = some helper := by rw [← hl.helper, hhelper]
        rw [block_of_helper hr hhelper, block_of_helper hr' hhelper', ← hisSome]
        exact alike_conclude name (alike_perform hbody hinverse _ (h.note _ _))
  · rw [block_of_failure hr, block_of_failure hr']
    exact ⟨h, fun _ => rfl⟩

theorem agree_inclusion
    {l l' : Linkage}
    (hl : l.Agree l')
    (name : Bytes) (base : Value) (parameters : List (Bytes × Value)) :
    Stencil.Agree (inclusion l name base parameters) (inclusion l' name base parameters) := by
  have hdisciplined : l.Disciplined := fun name f hf =>
    (Render.Agree.disciplined_of_rel (hl.inclusion name)).1 f hf
  have hdisciplined' : l'.Disciplined := fun name f hf =>
    (Render.Agree.disciplined_of_rel (hl.inclusion name)).2 f hf
  refine ⟨disciplined_inclusion hdisciplined name base parameters,
    disciplined_inclusion hdisciplined' name base parameters, fun {r r'} h => ?_⟩
  rcases h.failed_or with ⟨hr, hr'⟩ | ⟨e, e', hr, hr'⟩
  · have hname := hl.inclusion name
    generalize hf : l.inclusion name = found at hname
    generalize hf' : l'.inclusion name = found' at hname
    cases hname with
    | none =>
        rw [inclusion_of_unknown hr hf, inclusion_of_unknown hr' hf']
        exact ⟨h.fail _ _, fun _ => rfl⟩
    | some hagree =>
        cases hdeep : l.bound.any (· ≤ r.active) with
        | true =>
            have hdeep' : l'.bound.any (· ≤ r'.active) = true := by
              rw [← hl.bound, ← h.active, hdeep]
            rw [inclusion_of_deep hr hf hdeep, inclusion_of_deep hr' hf' hdeep']
            exact ⟨h.fail _ _, fun _ => rfl⟩
        | false =>
            have hdeep' : l'.bound.any (· ≤ r'.active) = false := by
              rw [← hl.bound, ← h.active, hdeep]
            have hbefore : (descend name (includedData base parameters) r).Abreast
                (descend name (includedData base parameters) r') :=
              ⟨congrArg (· + 1) h.active, h.failed⟩
            obtain ⟨habreast, hsame⟩ := (hagree (Scope.root _)).alike hbefore
            rw [inclusion_of_partial hr hf hdeep, inclusion_of_partial hr' hf' hdeep']
            exact ⟨⟨congrArg (· - 1) habreast.active, habreast.failed⟩, hsame⟩
  · rw [inclusion_of_failure hr, inclusion_of_failure hr']
    exact ⟨h, fun _ => rfl⟩

end Render

/-- The building blocks of rendering keep agreement. -/
def Agree.congruence {l l' : Linkage} (hl : l.Agree l') : Congruence l l' where
  rel f f' := Agree f f'
  unchanged := fun a => .unchanged a
  seq := fun hf hg => hf.seq hg
  block := fun name arguments _ _ _ _ hbody hinverse =>
    Render.agree_block hl name arguments hbody hinverse
  inclusion := Render.agree_inclusion hl

/-- A registry agrees with itself: what a program gives does not depend on the log. -/
theorem Registry.agree_linkAs
    (reg : Registry) (forms : Bytes → Backend) (bound : Option Nat) (fuel : Nat) :
    (reg.linkAs forms bound fuel).Agree (reg.linkAs forms bound fuel) := by
  induction fuel with
  | zero =>
      refine ⟨rfl, rfl, fun name => ?_⟩
      have hdisciplined := reg.disciplined_linkAs forms bound 0 name
      simp only [Registry.linkAs] at hdisciplined ⊢
      cases hops : reg.partialOps name with
      | none =>
          exact .none
      | some ops =>
          rw [hops] at hdisciplined
          have hf := hdisciplined _ rfl
          exact .some fun s => ⟨hf s, hf s, fun h => ⟨h.fail _ _, fun _ => rfl⟩⟩
  | succ fuel ih =>
      refine ⟨rfl, rfl, fun name => ?_⟩
      simp only [Registry.linkAs]
      cases hops : reg.partialOps name with
      | none =>
          exact .none
      | some ops =>
          exact .some fun s => (Agree.congruence ih).backend (forms name) ops s

/-! ## Steps and their code -/

theorem Path.path_code
    (p : Path) :
    p.code.path = { p with hops := p.hops.toNat } := by
  obtain ⟨hops, metadata, segments, trusted⟩ := p
  by_cases hpos : 0 < hops
  · cases metadata <;> cases segments <;> cases trusted <;>
      simp [Path.code, hpos, PathCode.path, Path.up, Path.trust]
  · have hzero : hops.toNat = 0 := by omega
    cases metadata <;> cases segments <;> cases trusted <;>
      simp [Path.code, hpos, hzero, PathCode.path, Path.trust]

/-- The code of a path leads to the same value. -/
theorem Scope.lookup_path_code
    (s : Scope) (p : Path) :
    s.lookup p.code.path = s.lookup p := by
  rw [Path.path_code]
  simp only [Scope.lookup, Scope.start, Int.toNat_natCast]

/-- An operand whose code has its value. -/
def Operand.Kept (a : Input) : Prop := ∀ s : Scope, (Operand.code a).value s = Operand.value s a

/-- An operand of a template keeps its value unless it is a negative zero. -/
theorem Operand.kept_of_written
    {a : Input}
    (hwritten : Operand.Written a)
    (hzero : a ≠ .literal (.written (.float (.zero true)))) :
    Operand.Kept a := by
  obtain ⟨o, rfl⟩ := hwritten
  intro s
  cases o with
  | path p =>
      exact s.lookup_path_code p.toPath
  | literal l =>
      cases l with
      | float x =>
          have hx : x ≠ .zero true := by
            intro hx
            exact hzero (by rw [hx]; rfl)
          simp [Operand.resolve, Operand.code, Constant.code, Literal.code, ValueCode.value, hx,
            Operand.value, Constant.value, Literal.value]
      | text | int | bool | null =>
          rfl

theorem Operand.map_value_code
    {inputs : List Input}
    (h : ∀ a ∈ inputs, Operand.Kept a)
    (s : Scope) :
    (inputs.map Operand.code).map (ValueCode.value s) = inputs.map (Operand.value s) := by
  rw [List.map_map]
  exact List.map_congr_left fun a ha => h a ha s

theorem namedMeanings_namedCode
    {named : List (Bytes × Input)}
    (h : ∀ a ∈ named.map Prod.snd, Operand.Kept a)
    (s : Scope) :
    namedMeanings s (namedCode named) = namedValues s named := by
  simp only [namedMeanings, namedCode, namedValues, List.map_map]
  refine List.map_congr_left fun a ha => ?_
  have hkept := h a.2 (List.mem_map_of_mem ha) s
  simp [hkept]

/-- A sequence of no or of one part is written without the sequence. -/
theorem Code.render_ofParts
    (l : Linkage) (parts : List Code) :
    Code.render l (.ofParts parts) = Code.renderAll l parts := by
  match parts with
  | [] =>
      rw [Code.ofParts, Code.render, Code.renderAll]
  | [c] =>
      funext s r
      simp [Code.ofParts, Code.renderAll, Render.append, Render.nothing]
  | c :: d :: rest =>
      have hparts : Code.ofParts (c :: d :: rest) = .sequence (c :: d :: rest) := rfl
      rw [hparts, Code.render]

/-- What two computations give, one after the other. -/
def inTurn {α β : Type} (f : Run → α × Run) (g : Run → β × Run) (r : Run) : (α × β) × Run :=
  (((f r).1, (g (f r).2).1), (g (f r).2).2)

/-- What two computations give, the second one first. -/
def inverted {α β : Type} (f : Run → α × Run) (g : Run → β × Run) (r : Run) : (α × β) × Run :=
  (((f (g r).2).1, (g r).1), (f (g r).2).2)

/-- The text of what steps render. -/
def Op.renderText (l : Linkage) (ops : List Op) (s : Scope) (r : Run) : Bytes × Run :=
  (Node.textOf (Op.renderAll l ops s r).1, (Op.renderAll l ops s r).2)

namespace Congruence

variable {l l' : Linkage}

/-- A relation allows to exchange the name and the attributes of some elements. -/
def Exchanges (c : Congruence l l') (allowed : Op → Prop) : Prop :=
  ∀ name attributes children, allowed (.element name attributes children) →
    ∀ (s : Scope) (f' : Run → List (Bytes × Bytes) × Run) (g' : Run → Bytes × Run),
      c.rel (Op.renderAttributes l attributes s) f' → c.rel (Op.renderText l name s) g' →
        c.rel (inTurn (Op.renderAttributes l attributes s) (Op.renderText l name s))
          (inverted f' g')

/-- Names and attribute values: a text that is written out, or the text of the nodes. -/
theorem renderText_code
    (c : Congruence l l')
    {ops : List Op} {s : Scope}
    (h : c.rel (Op.renderAll l ops s) (Code.renderAll l' (Op.codes ops) s)) :
    c.rel (Op.renderText l ops s)
      (TextCode.render l' (TextCode.ofOps ops (.ofParts (Op.codes ops))) s) := by
  unfold Op.renderText TextCode.ofOps
  split
  · simp only [Op.renderAll, Render.nothing, Node.textOf, TextCode.render]
    exact c.unchanged _
  · simp only [Op.renderAll, Op.render, Render.append, Render.nothing, List.append_nil,
      Node.textOf, Node.content, TextCode.render]
    exact c.unchanged _
  · simp only [TextCode.render, Code.render_ofParts]
    exact c.map h Node.textOf

variable {allowed : Op → Prop}

mutual

theorem op_code
    (c : Congruence l l')
    (hc : c.Exchanges allowed) :
    ∀ op : Op, (∀ a ∈ op.inputs, Operand.Kept a) → (∀ step ∈ op.steps, allowed step) →
      ∀ s, c.rel (Op.render l op s) (Code.render l' op.code s)
  | .literal v, _, _ => by
      intro s
      simp only [Op.render, Op.code, Code.render]
      exact c.unchanged _
  | .interpolation p, _, _ => by
      intro s
      simp only [Op.render, Op.code, Code.render, Scope.lookup_path_code]
      exact c.unchanged _
  | .element name attributes children, h, hsteps => by
      intro s
      simp only [Op.inputs, List.mem_append] at h
      simp only [Op.steps, List.mem_cons, List.mem_append] at hsteps
      have hname := c.renderText_code (ops_codes c hc name (fun a ha => h a (.inl (.inl ha)))
        (fun step hstep => hsteps step (.inr (.inl (.inl hstep)))) s)
      have hattributes := attributes_codes c hc attributes (fun a ha => h a (.inl (.inr ha)))
        (fun step hstep => hsteps step (.inr (.inl (.inr hstep)))) s
      have hchildren := ops_codes c hc children (fun a ha => h a (.inr ha))
        (fun step hstep => hsteps step (.inr (.inr hstep))) s
      have hboth := hc name attributes children (hsteps _ (.inl rfl)) s _ _ hattributes hname
      simp only [Op.render, Op.code, Code.render, Code.render_ofParts]
      exact c.seq hboth fun x => c.map hchildren fun ns => [Node.element x.2 x.1 ns]
  | .block name arguments named body inverse synthetic, h, hsteps => by
      intro s
      simp only [Op.inputs, List.mem_append] at h
      simp only [Op.steps, List.mem_cons, List.mem_append] at hsteps
      have harguments := Operand.map_value_code fun a ha => h a (.inl (.inl (.inl ha)))
      have hnamed := namedMeanings_namedCode fun a ha => h a (.inl (.inl (.inr ha)))
      have hbody := ops_codes c hc body (fun a ha => h a (.inl (.inr ha)))
        fun step hstep => hsteps step (.inr (.inl hstep))
      have hinverse := inverse_code c hc inverse (fun a ha => h a (.inr ha))
        fun step hstep => hsteps step (.inr (.inr hstep))
      simp only [Op.render, Op.code, Code.render, Code.render_ofParts, harguments, hnamed]
      exact c.block name _ hbody hinverse s
  | .inclusion name context parameters, h, _ => by
      intro s
      have hparameters := namedMeanings_namedCode h s
      have hcontext : (context.map Path.code).elim s.data (fun path => s.lookup path.path) =
          context.elim s.data s.lookup := by
        cases context with
        | none =>
            rfl
        | some p =>
            exact s.lookup_path_code p
      simp only [Op.render, Op.code, Code.render, hparameters, hcontext]
      exact c.inclusion name _ _
  | .unknown, _, _ => by
      intro s
      simp only [Op.render, Op.code, Code.render]
      exact c.unchanged _

theorem ops_codes
    (c : Congruence l l')
    (hc : c.Exchanges allowed) :
    ∀ ops : List Op, (∀ a ∈ Op.allInputs ops, Operand.Kept a) →
      (∀ step ∈ Op.allSteps ops, allowed step) →
        ∀ s, c.rel (Op.renderAll l ops s) (Code.renderAll l' (Op.codes ops) s)
  | [], _, _ => by
      intro s
      simp only [Op.renderAll, Op.codes, Code.renderAll]
      exact c.unchanged _
  | op :: rest, h, hsteps => by
      intro s
      simp only [Op.allInputs, List.mem_append] at h
      simp only [Op.allSteps, List.mem_append] at hsteps
      have hop := op_code c hc op (fun a ha => h a (.inl ha))
        fun step hstep => hsteps step (.inl hstep)
      have hrest := ops_codes c hc rest (fun a ha => h a (.inr ha))
        fun step hstep => hsteps step (.inr hstep)
      simp only [Op.renderAll, Op.codes, Code.renderAll]
      exact c.append hop hrest s

theorem attributes_codes
    (c : Congruence l l')
    (hc : c.Exchanges allowed) :
    ∀ attributes : List (Bytes × List Op), (∀ a ∈ Op.attributeInputs attributes, Operand.Kept a) →
      (∀ step ∈ Op.attributeSteps attributes, allowed step) →
        ∀ s, c.rel (Op.renderAttributes l attributes s)
          (Code.renderAttributes l' (Op.attributeCodes attributes) s)
  | [], _, _ => by
      intro s
      simp only [Op.renderAttributes, Op.attributeCodes, Code.renderAttributes]
      exact c.unchanged _
  | (key, value) :: rest, h, hsteps => by
      intro s
      simp only [Op.attributeInputs, List.mem_append] at h
      simp only [Op.attributeSteps, List.mem_append] at hsteps
      have hvalue := c.renderText_code (ops_codes c hc value (fun a ha => h a (.inl ha))
        (fun step hstep => hsteps step (.inl hstep)) s)
      have hrest := attributes_codes c hc rest (fun a ha => h a (.inr ha))
        (fun step hstep => hsteps step (.inr hstep)) s
      simp only [Op.renderAttributes, Op.attributeCodes, Code.renderAttributes]
      exact c.seq hvalue fun text => c.map hrest fun as => (key, text) :: as

theorem inverse_code
    (c : Congruence l l')
    (hc : c.Exchanges allowed) :
    ∀ inverse : Option (List Op), (∀ a ∈ Op.inverseInputs inverse, Operand.Kept a) →
      (∀ step ∈ Op.inverseSteps inverse, allowed step) →
        Option.Rel (fun f f' => ∀ s, c.rel (f s) (f' s)) (Op.renderInverse l inverse)
          (Code.renderInverse l' (Op.inverseCode inverse))
  | none, _, _ => by
      simp only [Op.renderInverse, Op.inverseCode, Code.renderInverse]
      exact .none
  | some ops, h, hsteps => by
      have hops := ops_codes c hc ops h hsteps
      simp only [Op.renderInverse, Op.inverseCode, Code.renderInverse, Code.render_ofParts]
      exact .some hops

end

/-- What allows to exchange the name and the attributes of the elements of a program relates the
program, run step by step, to itself in either form. -/
theorem steps_backend
    (c : Congruence l l')
    (hc : c.Exchanges allowed)
    {ops : List Op}
    (hkept : ∀ a ∈ Op.allInputs ops, Operand.Kept a)
    (hsteps : ∀ step ∈ Op.allSteps ops, allowed step)
    (form : Backend) (s : Scope) :
    c.rel (Op.renderAll l ops s) (form.render l' ops s) := by
  cases form with
  | steps =>
      exact c.ops ops s
  | emitted =>
      rw [Backend.render, Code.render_ofParts]
      exact c.ops_codes hc ops hkept hsteps s

end Congruence

theorem Agree.exchanges
    {l l' : Linkage}
    (hl : l.Agree l') :
    (Agree.congruence hl).Exchanges (fun _ => True) :=
  fun _ _ _ _ _ _ _ hattributes hname => Agree.swap hattributes hname

theorem Op.agree_codes
    {l l' : Linkage}
    (hl : l.Agree l')
    (ops : List Op)
    (h : ∀ a ∈ Op.allInputs ops, Operand.Kept a) :
    Render.Agree (Op.renderAll l ops) (Code.renderAll l' (Op.codes ops)) :=
  (Agree.congruence hl).ops_codes (Agree.exchanges hl) ops h fun _ _ => trivial

/-- Both outcomes are failures, or both are the same nodes. -/
def SameOutcome : Except RenderError (List Node) → Except RenderError (List Node) → Prop
  | .ok ns, .ok ns' => ns = ns'
  | .error _, .error _ => True
  | _, _ => False

theorem sameOutcome_of_alike
    {x x' : List Node × Run}
    (h : Alike x x') :
    SameOutcome (outcome x) (outcome x') := by
  obtain ⟨habreast, hsame⟩ := h
  rcases habreast.failed_or with ⟨hr, hr'⟩ | ⟨e, e', hr, hr'⟩
  · simp [outcome, hr, hr', SameOutcome, hsame hr]
  · simp [outcome, hr, hr', SameOutcome]

/-- A program of a template without a negative zero among its operands fails in both ways to run it,
or gives the same nodes in both, whatever it calls and in whatever form that is registered. -/
theorem outcomes_agree_of_compiled
    (names : Names) (trees : List Tree) (ops : List Op)
    (hbuild : Compile.forest names trees = .ok ops)
    (hzero : ∀ a ∈ Op.allInputs ops, a ≠ .literal (.written (.float (.zero true))))
    (reg : Registry) (forms : Bytes → Backend) (bound : Option Nat) (fuel : Nat) (data : Value) :
    SameOutcome (outcome (reg.runAs forms bound fuel .steps ops data))
      (outcome (reg.runAs forms bound fuel .emitted ops data)) := by
  have hcompiled := Compile.nodes_eq_ok_iff.1 hbuild
  have hkept : ∀ a ∈ Op.allInputs ops, Operand.Kept a := fun a ha =>
    Operand.kept_of_written (hcompiled.inputs_written a ha) (hzero a ha)
  have hlinked := reg.agree_linkAs forms bound fuel
  have hagree := Op.agree_codes hlinked ops hkept (Scope.root data)
  have hstart : ({} : Run).Abreast {} := .of_going rfl rfl rfl
  rw [Registry.runAs, Registry.runAs, Backend.render, Backend.render, Code.render_ofParts]
  exact sameOutcome_of_alike (hagree.alike hstart)

/-- An element whose name and attribute are computed, around a call of a partial. -/
def computedSample : List Tree :=
  [.element ⟨0, 60⟩ [⟨⟨0, 8⟩, .interpolation (.dotted [utf8 "tag"])⟩]
    [(utf8 "class", [⟨⟨8, 16⟩, .opening (utf8 "if") [⟨none, .path (.dotted [utf8 "tag"])⟩] false⟩,
      ⟨⟨16, 18⟩, .literal (utf8 "on")⟩, ⟨⟨18, 25⟩, .closing (utf8 "if")⟩])]
    [.text ⟨30, 50⟩ [⟨⟨30, 50⟩, .inclusion (utf8 "row") none [(utf8 "n", .literal (.int 3))]⟩]]]

theorem outcomes_agree_computedSample :
    let reg : Registry := ⟨fun name => Helper.builtins.lookup name,
      fun name => if name = utf8 "row" then some [.interpolation { segments := [utf8 "n"] }]
        else none⟩
    let data := Value.object [(utf8 "tag", .text (utf8 "li"))]
    let expected := [Node.element (utf8 "li") [(utf8 "class", utf8 "on")] [.text (utf8 "3")]]
    ∃ ops, Compile.forest Names.any computedSample = .ok ops ∧
      outcome (reg.runAs (fun _ => .emitted) (some 8) 8 .steps ops data) = .ok expected ∧
      SameOutcome (outcome (reg.runAs (fun _ => .emitted) (some 8) 8 .steps ops data))
        (outcome (reg.runAs (fun _ => .emitted) (some 8) 8 .emitted ops data)) := by
  intro reg data expected
  refine ⟨_, rfl, ?_, ?_⟩
  · rfl
  · exact outcomes_agree_of_compiled Names.any computedSample _ rfl (by decide) reg _ _ _ _

/-- Where both a name and an attribute value fail, the two ways to run the element record different
failures. -/
example :
    let reg : Registry := ⟨fun _ => none, fun _ => none⟩
    let call (name : String) : Op := .block (utf8 name) [] [] [] none false
    let ops : List Op := [.element [call "tag"] [(utf8 "class", [call "style"])] []]
    outcome (reg.runAs (fun _ => .steps) none 0 .steps ops .null) =
        .error (.unknownHelper (utf8 "style")) ∧
      outcome (reg.runAs (fun _ => .steps) none 0 .emitted ops .null) =
        .error (.unknownHelper (utf8 "tag")) :=
  ⟨rfl, rfl⟩

end Stencil
