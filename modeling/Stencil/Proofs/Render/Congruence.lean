import Stencil.Code.Meaning

/-!
# Relations that rendering respects

A program can be run step by step or as the code that it is emitted as, and the partials that it
calls can be registered in either form.  Both ways are put together from the same few building
blocks: results that leave the run alone, one computation after the other, and calls of helpers and
partials.  A relation between computations that these respect holds between the runs of a program
under two linkages, so that its induction over programs is made here once.

Results: `Congruence.backend` for programs in either form.
-/

namespace Stencil

/-- How a program is run: step by step, or as the code that it is emitted as. -/
inductive Backend where
  | steps
  | emitted

/-- What a program renders when it is run in one of the two ways. -/
def Backend.render (l : Linkage) : Backend → List Op → Render
  | steps, ops => Op.renderAll l ops
  | emitted, ops => Code.render l (.ofParts (Op.codes ops))

/-- What programs can call when every partial is registered in one of the two forms and partial
calls may nest `fuel` levels deep. -/
def Registry.linkAs (reg : Registry) (forms : Bytes → Backend) (bound : Option Nat) :
    (fuel : Nat) → Linkage
  | 0 =>
    { helper := reg.helper
      inclusion := fun name => (reg.partialOps name).map fun _ _ r => ([], r.fail .exhausted)
      bound := bound }
  | fuel + 1 =>
    { helper := reg.helper
      inclusion := fun name =>
        (reg.partialOps name).map ((forms name).render (reg.linkAs forms bound fuel))
      bound := bound }

/-- With all partials run step by step this is how programs are linked to render. -/
theorem Registry.linkAs_steps
    (reg : Registry) (bound : Option Nat) (fuel : Nat) :
    reg.linkAs (fun _ => .steps) bound fuel = reg.link bound fuel := by
  induction fuel with
  | zero =>
      rfl
  | succ fuel ih =>
      rw [Registry.linkAs, Registry.link, ih]
      rfl

namespace Registry

variable (reg : Registry) (bound : Option Nat) (fuel : Nat)

@[simp] theorem helper_link :
    (reg.link bound fuel).helper = reg.helper := by
  cases fuel <;> rfl

@[simp] theorem bound_link :
    (reg.link bound fuel).bound = bound := by
  cases fuel <;> rfl

variable {reg}

theorem inclusion_link_none
    {name : Bytes}
    (h : reg.partialOps name = none) :
    (reg.link bound fuel).inclusion name = none := by
  cases fuel <;> simp [link, h]

theorem inclusion_link_some
    {name : Bytes} {ops : List Op}
    (h : reg.partialOps name = some ops) :
    ∃ f, (reg.link bound fuel).inclusion name = some f := by
  cases fuel <;> simp [link, h]

theorem inclusion_link_succ
    {name : Bytes} {ops : List Op}
    (h : reg.partialOps name = some ops) :
    (reg.link bound (fuel + 1)).inclusion name = some (Op.renderAll (reg.link bound fuel) ops) := by
  simp [link, h]

end Registry

/-- The run of a program on data, with the partials of a registry in the given forms. -/
def Registry.runAs (reg : Registry) (forms : Bytes → Backend) (bound : Option Nat) (fuel : Nat)
    (form : Backend) (ops : List Op) (data : Value) : List Node × Run :=
  form.render (reg.linkAs forms bound fuel) ops (Scope.root data) {}

/-! What is known of related sections, one by one. -/

theorem Render.forall_left_of_rel
    {R : Render → Render → Prop} {P : Render → Prop} {part part' : Option Render}
    (h : Option.Rel R part part')
    (hP : ∀ f f', R f f' → P f) :
    ∀ f ∈ part, P f := by
  rintro f ⟨⟩
  cases h with
  | some hrel =>
      exact hP _ _ hrel

theorem Render.forall_right_of_rel
    {R : Render → Render → Prop} {P : Render → Prop} {part part' : Option Render}
    (h : Option.Rel R part part')
    (hP : ∀ f f', R f f' → P f') :
    ∀ f ∈ part', P f := by
  rintro f ⟨⟩
  cases h with
  | some hrel =>
      exact hP _ _ hrel

/-- A relation between computations in runs that the building blocks of rendering respect, where
calls go by `l` on the one side and by `l'` on the other. -/
structure Congruence (l l' : Linkage) where
  rel : {α : Type} → (Run → α × Run) → (Run → α × Run) → Prop
  unchanged : ∀ {α : Type} (a : α), rel (fun r => (a, r)) (fun r => (a, r))
  seq : ∀ {α β : Type} {f f' : Run → α × Run} {g g' : α → Run → β × Run},
    rel f f' → (∀ a, rel (g a) (g' a)) →
      rel (fun r => g (f r).1 (f r).2) (fun r => g' (f' r).1 (f' r).2)
  block : ∀ (name : Bytes) (arguments : Scope → Arguments) {body body' : Render}
    {inverse inverse' : Option Render},
    (∀ s, rel (body s) (body' s)) →
      Option.Rel (fun f f' => ∀ s, rel (f s) (f' s)) inverse inverse' →
      ∀ s, rel (Render.block l name arguments body inverse s)
        (Render.block l' name arguments body' inverse' s)
  inclusion : ∀ (name : Bytes) (base : Value) (parameters : List (Bytes × Value)),
    rel (Render.inclusion l name base parameters) (Render.inclusion l' name base parameters)

namespace Congruence

variable {l l' : Linkage}

theorem map
    (c : Congruence l l')
    {α β : Type} {f f' : Run → α × Run}
    (hf : c.rel f f')
    (g : α → β) :
    c.rel (fun r => (g (f r).1, (f r).2)) (fun r => (g (f' r).1, (f' r).2)) :=
  c.seq hf fun a => c.unchanged (g a)

theorem append
    (c : Congruence l l')
    {f f' g g' : Render}
    (hf : ∀ s, c.rel (f s) (f' s))
    (hg : ∀ s, c.rel (g s) (g' s))
    (s : Scope) :
    c.rel (Render.append f g s) (Render.append f' g' s) :=
  c.seq (hf s) fun ns => c.map (hg s) fun ms => ns ++ ms

mutual

theorem op
    (c : Congruence l l') :
    ∀ (op : Op) (s : Scope), c.rel (Op.render l op s) (Op.render l' op s)
  | .literal v, s => by
      simp only [Op.render]
      exact c.unchanged _
  | .interpolation p, s => by
      simp only [Op.render]
      exact c.unchanged _
  | .element name attributes children, s => by
      simp only [Op.render]
      have hchildren := fun (as : List (Bytes × Bytes)) (tag : List Node) =>
        c.map (ops c children s) fun ns => [Node.element (Node.textOf tag) as ns]
      exact c.seq (attributeOps c attributes s) fun as => c.seq (ops c name s) (hchildren as)
  | .block name arguments named body inverse synthetic, s => by
      simp only [Op.render]
      exact c.block name _ (ops c body) (inverseOps c inverse) s
  | .inclusion name context parameters, s => by
      simp only [Op.render]
      exact c.inclusion name _ _
  | .unknown, s => by
      simp only [Op.render]
      exact c.unchanged _

theorem ops
    (c : Congruence l l') :
    ∀ (ops : List Op) (s : Scope), c.rel (Op.renderAll l ops s) (Op.renderAll l' ops s)
  | [], s => by
      simp only [Op.renderAll]
      exact c.unchanged _
  | first :: rest, s => by
      simp only [Op.renderAll]
      exact c.append (op c first) (ops c rest) s

theorem attributeOps
    (c : Congruence l l') :
    ∀ (attributes : List (Bytes × List Op)) (s : Scope),
      c.rel (Op.renderAttributes l attributes s) (Op.renderAttributes l' attributes s)
  | [], s => by
      simp only [Op.renderAttributes]
      exact c.unchanged _
  | (key, value) :: rest, s => by
      simp only [Op.renderAttributes]
      exact c.seq (ops c value s) fun ns =>
        c.map (attributeOps c rest s) fun as => (key, Node.textOf ns) :: as

theorem inverseOps
    (c : Congruence l l') :
    ∀ inverse : Option (List Op),
      Option.Rel (fun f f' => ∀ s, c.rel (f s) (f' s)) (Op.renderInverse l inverse)
        (Op.renderInverse l' inverse)
  | none => by
      simp only [Op.renderInverse]
      exact .none
  | some section₂ => by
      simp only [Op.renderInverse]
      exact .some (ops c section₂)

end

mutual

theorem code
    (c : Congruence l l') :
    ∀ (code : Code) (s : Scope), c.rel (Code.render l code s) (Code.render l' code s)
  | .nothing, s => by
      simp only [Code.render]
      exact c.unchanged _
  | .text t, s => by
      simp only [Code.render]
      exact c.unchanged _
  | .interpolation path, s => by
      simp only [Code.render]
      exact c.unchanged _
  | .element tag attributes children, s => by
      simp only [Code.render]
      have hchildren := fun (name : Bytes) (as : List (Bytes × Bytes)) =>
        c.map (code c children s) fun ns => [Node.element name as ns]
      exact c.seq (textCode c tag s) fun name =>
        c.seq (attributeCodes c attributes s) (hchildren name)
  | .block name arguments named body inverse, s => by
      simp only [Code.render]
      exact c.block name _ (code c body) (inverseCode c inverse) s
  | .inclusion name context parameters, s => by
      simp only [Code.render]
      exact c.inclusion name _ _
  | .sequence parts, s => by
      simp only [Code.render]
      exact codes c parts s

theorem codes
    (c : Congruence l l') :
    ∀ (parts : List Code) (s : Scope), c.rel (Code.renderAll l parts s) (Code.renderAll l' parts s)
  | [], s => by
      simp only [Code.renderAll]
      exact c.unchanged _
  | first :: rest, s => by
      simp only [Code.renderAll]
      exact c.append (code c first) (codes c rest) s

theorem attributeCodes
    (c : Congruence l l') :
    ∀ (attributes : List (Bytes × TextCode)) (s : Scope),
      c.rel (Code.renderAttributes l attributes s) (Code.renderAttributes l' attributes s)
  | [], s => by
      simp only [Code.renderAttributes]
      exact c.unchanged _
  | (key, value) :: rest, s => by
      simp only [Code.renderAttributes]
      exact c.seq (textCode c value s) fun text =>
        c.map (attributeCodes c rest s) fun as => (key, text) :: as

theorem inverseCode
    (c : Congruence l l') :
    ∀ inverse : Option Code,
      Option.Rel (fun f f' => ∀ s, c.rel (f s) (f' s)) (Code.renderInverse l inverse)
        (Code.renderInverse l' inverse)
  | none => by
      simp only [Code.renderInverse]
      exact .none
  | some section₂ => by
      simp only [Code.renderInverse]
      exact .some (code c section₂)

theorem textCode
    (c : Congruence l l') :
    ∀ (text : TextCode) (s : Scope), c.rel (TextCode.render l text s) (TextCode.render l' text s)
  | .literal t, s => by
      simp only [TextCode.render]
      exact c.unchanged _
  | .flattened part, s => by
      simp only [TextCode.render]
      exact c.map (code c part s) Node.textOf

end

/-- What the building blocks respect, programs respect in either form. -/
theorem backend
    (c : Congruence l l')
    (form : Backend) (list : List Op) (s : Scope) :
    c.rel (form.render l list s) (form.render l' list s) := by
  cases form with
  | steps =>
      exact c.ops list s
  | emitted =>
      exact c.code _ s

end Congruence

end Stencil
