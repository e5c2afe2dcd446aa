import Stencil.Proofs.Checks
import Stencil.Proofs.Compile.Forest
import Stencil.Proofs.Compile.Matching

/-!
# Respelled templates

A template is respelled by exchanging each of its literals for other ones and by moving its places.
The names of elements are either respelled as well or left alone, and then places stay where they
are.  Compiling a respelled template gives the respelled program, or fails for the same cause at the
place that the fault is moved to.

Results: `Respelling.nodes_eq` for compiling, `Respelling.trees_finish` for the forest that is
built, and `Respelling.allKnown_ops`.
-/

namespace Stencil

open Compile (Matcher OpenBlock)
open Stencil.Tree (Builder Open)

/-! ## Ways to respell -/

/-- A place with its ends moved. -/
def Span.moved (shift : Nat → Nat) (s : Span) : Span := ⟨shift s.start, shift s.stop⟩

/-- A literal exchanged for other ones, and any other mark as it is. -/
def Mark.respell (cut : Bytes → List Bytes) : Mark → List Mark
  | .literal s => (cut s).map .literal
  | mark => [mark]

/-- A way to respell templates and programs, with what is seen of faults: nothing, if places are
moved. -/
structure Respelling where
  cut : Bytes → List Bytes
  shift : Nat → Nat
  view : Fault → Option Fault
  fragments : List Fragment → List Fragment
  name : List Fragment → List Fragment
  tree : Tree → List Tree
  trees : List Tree → List Tree
  op : Op → List Op
  ops : List Op → List Op
  nameOps : List Op → List Op
  fragments_nil : fragments [] = []
  fragments_cons : ∀ f fs, fragments (f :: fs) =
    (f.mark.respell cut).map (Fragment.mk (f.span.moved shift)) ++ fragments fs
  tree_text : ∀ span fs, tree (.text span fs) = (fragments fs).map fun f => .text f.span [f]
  tree_element : ∀ span n attributes children, tree (.element span n attributes children) =
    [.element (span.moved shift) (name n) (attributes.map fun a => (a.1, fragments a.2))
      (trees children)]
  trees_nil : trees [] = []
  trees_cons : ∀ t rest, trees (t :: rest) = tree t ++ trees rest
  op_literal : ∀ s, op (.literal s) = (cut s).map .literal
  op_element : ∀ n attributes children, op (.element n attributes children) =
    [.element (nameOps n) (attributes.map fun a => (a.1, ops a.2)) (ops children)]
  op_block : ∀ n arguments named body inverse synthetic,
    op (.block n arguments named body inverse synthetic) =
      [.block n arguments named (ops body) (inverse.map ops) synthetic]
  op_interpolation : ∀ p, op (.interpolation p) = [.interpolation p]
  op_inclusion : ∀ n context parameters,
    op (.inclusion n context parameters) = [.inclusion n context parameters]
  op_unknown : op .unknown = [.unknown]
  ops_nil : ops [] = []
  ops_cons : ∀ first rest, ops (first :: rest) = op first ++ ops rest
  names : (name = id ∧ nameOps = id) ∨ (name = fragments ∧ nameOps = ops)
  places : shift = id ∨ ∀ f f', view f = view f'

namespace Respelling

variable (σ : Respelling)

/-! ## Forests under construction -/

theorem trees_append
    (ts us : List Tree) :
    σ.trees (ts ++ us) = σ.trees ts ++ σ.trees us := by
  induction ts with
  | nil =>
      rw [σ.trees_nil]
      rfl
  | cons t rest ih =>
      rw [List.cons_append, σ.trees_cons, σ.trees_cons, ih, List.append_assoc]

theorem trees_singleton
    (t : Tree) :
    σ.trees [t] = σ.tree t := by
  rw [σ.trees_cons, σ.trees_nil, List.append_nil]

/-- An open element, respelled. -/
def element (e : Open) : Open where
  span := e.span.moved σ.shift
  name := σ.name e.name
  attributes := e.attributes.map fun a => (a.1, σ.fragments a.2)
  children := σ.trees e.children

theorem tree_close
    (e : Open) (stop : Nat) :
    σ.tree (e.close stop) = [(σ.element e).close (σ.shift stop)] := by
  rw [Open.close, σ.tree_element]
  rfl

/-- A forest under construction, respelled. -/
def builder (b : Builder) : Builder := ⟨b.stack.map σ.element, σ.trees b.roots⟩

theorem builder_attach
    (t : Tree) (b : Builder) :
    σ.builder (b.attach t) = (σ.builder b).attachAll (σ.tree t) := by
  obtain ⟨stack, roots⟩ := b
  cases stack with
  | nil =>
      rw [builder, builder, List.map_nil, Builder.attachAll_roots, Builder.attach,
        σ.trees_append, σ.trees_singleton]
      rfl
  | cons e stack =>
      rw [builder, builder, List.map_cons, Builder.attachAll_open, Builder.attach,
        List.map_cons, element, σ.trees_append, σ.trees_singleton]
      rfl

theorem builder_close
    (b : Builder) (stop : Nat) :
    σ.builder (b.close stop) = (σ.builder b).close (σ.shift stop) := by
  obtain ⟨stack, roots⟩ := b
  cases stack with
  | nil =>
      rfl
  | cons e stack =>
      rw [Builder.close, builder_attach, σ.tree_close]
      rfl

theorem builder_attach_text
    (b : Builder) (span : Span) (fs : List Fragment) :
    σ.builder (if fs.isEmpty then b else b.attach (.text span fs)) =
      (σ.builder b).attachAll ((σ.fragments fs).map fun f => .text f.span [f]) := by
  rw [← σ.tree_text span]
  cases fs with
  | nil =>
      rw [σ.tree_text, σ.fragments_nil]
      rfl
  | cons f rest =>
      exact σ.builder_attach _ b

theorem trees_finish
    (roots : List Tree) (stack : List Open) :
    σ.trees (Builder.finish roots stack) =
      Builder.finish (σ.trees roots) (stack.map σ.element) := by
  fun_induction Builder.finish roots stack with
  | case1 =>
      rw [List.map_nil, Builder.finish]
  | case2 e =>
      rw [List.map_cons, List.map_nil, Builder.finish, σ.trees_append, σ.trees_singleton,
        σ.tree_close]
      rfl
  | case3 e outer stack ih =>
      rw [ih, List.map_cons, List.map_cons, List.map_cons, Builder.finish, element,
        σ.trees_append, σ.trees_singleton, σ.tree_close]
      rfl

/-! ## Steps -/

theorem ops_append
    (ops more : List Op) :
    σ.ops (ops ++ more) = σ.ops ops ++ σ.ops more := by
  induction ops with
  | nil =>
      rw [σ.ops_nil]
      rfl
  | cons op rest ih =>
      rw [List.cons_append, σ.ops_cons, σ.ops_cons, ih, List.append_assoc]

theorem ops_singleton
    (op : Op) :
    σ.ops [op] = σ.op op := by
  rw [σ.ops_cons, σ.ops_nil, List.append_nil]

end Respelling

theorem Op.allKnown_append
    (ops more : List Op) :
    allKnown (ops ++ more) = (allKnown ops && allKnown more) := by
  induction ops with
  | nil =>
      rfl
  | cons op rest ih =>
      rw [List.cons_append, allKnown, allKnown, ih, Bool.and_assoc]

namespace Respelling

variable (σ : Respelling)

mutual

theorem allKnown_op
    (op : Op) :
    Op.allKnown (σ.op op) = op.isKnown := by
  cases op with
  | literal s =>
      have hliterals : ∀ l : List Bytes, Op.allKnown (l.map .literal) = true := by
        intro l
        induction l with
        | nil =>
            rfl
        | cons s rest ih =>
            rw [List.map_cons, Op.allKnown, ih]
            rfl
      rw [σ.op_literal, hliterals]
      rfl
  | element n attributes children =>
      have hname : Op.allKnown (σ.nameOps n) = Op.allKnown n := by
        rcases σ.names with ⟨-, hname⟩ | ⟨-, hname⟩
        · rw [hname, id]
        · rw [hname, allKnown_ops n]
      rw [σ.op_element, Op.allKnown, Op.allKnown, Op.isKnown, Op.isKnown, hname,
        attributesKnown attributes, allKnown_ops children, Bool.and_true]
  | block n arguments named body inverse synthetic =>
      rw [σ.op_block, Op.allKnown, Op.allKnown, Op.isKnown, Op.isKnown, inverseKnown inverse,
        allKnown_ops body, Bool.and_true]
  | interpolation p =>
      rw [σ.op_interpolation]
      rfl
  | inclusion n context parameters =>
      rw [σ.op_inclusion]
      rfl
  | unknown =>
      rw [σ.op_unknown]
      rfl

/-- Respelling keeps which steps are of known kinds. -/
theorem allKnown_ops
    (ops : List Op) :
    Op.allKnown (σ.ops ops) = Op.allKnown ops := by
  cases ops with
  | nil =>
      rw [σ.ops_nil]
  | cons op rest =>
      rw [σ.ops_cons, Op.allKnown_append, allKnown_op op, allKnown_ops rest, Op.allKnown]

theorem attributesKnown
    (attributes : List (Bytes × List Op)) :
    Op.attributesKnown (attributes.map fun a => (a.1, σ.ops a.2)) =
      Op.attributesKnown attributes := by
  cases attributes with
  | nil =>
      rfl
  | cons a rest =>
      rw [List.map_cons, Op.attributesKnown, Op.attributesKnown, allKnown_ops a.2,
        attributesKnown rest]

theorem inverseKnown
    (inverse : Option (List Op)) :
    Op.inverseKnown (inverse.map σ.ops) = Op.inverseKnown inverse := by
  cases inverse with
  | none =>
      rfl
  | some ops =>
      rw [Option.map_some, Op.inverseKnown, Op.inverseKnown, allKnown_ops ops]

end

/-! ## Compiling -/

/-- An open block, respelled. -/
def block (b : OpenBlock) : OpenBlock :=
  { b with
    span := b.span.moved σ.shift
    body := σ.ops b.body
    inverse := b.inverse.map fun i => (σ.shift i.1, σ.ops i.2) }

/-- The state of matching, respelled. -/
def matcher (m : Matcher) : Matcher := ⟨m.stack.map σ.block, σ.ops m.ops⟩

theorem matcher_empty :
    σ.matcher {} = {} := by
  rw [matcher, σ.ops_nil]
  rfl

theorem op_block_op
    (b : OpenBlock) :
    σ.op b.op = [(σ.block b).op] := by
  rw [OpenBlock.op, σ.op_block, OpenBlock.op, block, Option.map_map,
    Option.map_map]
  rfl

/-- What a step is exchanged for is added. -/
theorem matcher_add
    (op : Op) (m : Matcher) :
    σ.matcher (m.add op) = (σ.matcher m).addAll (σ.op op) := by
  obtain ⟨stack, ops⟩ := m
  cases stack with
  | nil =>
      rw [matcher, matcher, List.map_nil, Matcher.addAll_of_stack_eq_nil,
        Matcher.add, σ.ops_append, σ.ops_singleton]
      rfl
  | cons b stack =>
      have hpush : σ.matcher ⟨b :: stack, ops⟩ =
          (σ.matcher ⟨stack, ops⟩).push (σ.block b) := rfl
      cases hinverse : b.inverse with
      | none =>
          have hblock : (σ.block b).inverse = none := by rw [block, hinverse]; rfl
          rw [hpush, Matcher.addAll_push_body _ _ _ hblock]
          simp [Matcher.add, OpenBlock.add, matcher, Matcher.push, block,
            hinverse, σ.ops_append, σ.ops_singleton]
      | some second =>
          have hblock : (σ.block b).inverse = some (σ.shift second.1, σ.ops second.2) := by
            rw [block, hinverse]; rfl
          rw [hpush, Matcher.addAll_push_inverse _ _ _ _ _ hblock]
          simp [Matcher.add, OpenBlock.add, matcher, Matcher.push, block,
            hinverse, σ.ops_append, σ.ops_singleton]

/-- Checks that have the same result up to respelling, or fail in the same view. -/
def Agrees {α β : Type} (h : β → α) (x : Except Fault α) (y : Except Fault β) : Prop :=
  x.mapError σ.view = (y.map h).mapError σ.view

variable {σ} in
theorem Agrees.toOption
    {α β : Type} {h : β → α} {x : Except Fault α} {y : Except Fault β}
    (hxy : σ.Agrees h x y) :
    x.toOption = y.toOption.map h := by
  cases x with
  | error e =>
      cases y with
      | error e' =>
          rfl
      | ok b =>
          cases hxy
  | ok a =>
      cases y with
      | error e' =>
          cases hxy
      | ok b =>
          exact congrArg some (Except.ok.inj hxy)

variable {σ} in
/-- Where faults are seen as they are, checks that agree are the same. -/
theorem Agrees.eq
    {α β : Type} {h : β → α} {x : Except Fault α} {y : Except Fault β}
    (hxy : σ.Agrees h x y)
    (hview : σ.view = some) :
    x = y.map h := by
  rw [Agrees, hview] at hxy
  cases x <;> cases y <;> cases hxy <;> rfl

theorem Agrees.bind
    {α β γ δ : Type} {h : β → α} {k : δ → γ} {x : Except Fault α} {y : Except Fault β}
    {g : α → Except Fault γ} {g' : β → Except Fault δ}
    (hxy : σ.Agrees h x y)
    (hg : ∀ b, σ.Agrees k (g (h b)) (g' b)) :
    σ.Agrees k (x >>= g) (y >>= g') := by
  cases x with
  | error e =>
      cases y with
      | error e' =>
          exact congrArg Except.error (Except.error.inj hxy)
      | ok b =>
          cases hxy
  | ok a =>
      cases y with
      | error e' =>
          cases hxy
      | ok b =>
          rw [Except.ok.inj hxy]
          exact hg b

theorem Agrees.mapM
    {α β γ : Type} {h : β → α} {f : γ → Except Fault α} {g : γ → Except Fault β}
    (hfg : ∀ c, σ.Agrees h (f c) (g c))
    (l : List γ) :
    σ.Agrees (List.map h) (l.mapM f) (l.mapM g) := by
  induction l with
  | nil =>
      rfl
  | cons c rest ih =>
      rw [List.mapM_cons, List.mapM_cons]
      exact (hfg c).bind σ fun b => ih.bind σ fun bs => rfl

/-- The same cause at the moved place is the same in the view. -/
theorem view_moved
    (cause : Cause) (span : Span) :
    σ.view ⟨cause, span.moved σ.shift⟩ = σ.view ⟨cause, span⟩ := by
  rcases σ.places with hshift | hview
  · rw [hshift]
    rfl
  · exact hview _ _

theorem view_secondElse
    (name : Bytes) (first : Nat) (span : Span) :
    σ.view ⟨.secondElse name (σ.shift first), span.moved σ.shift⟩ =
      σ.view ⟨.secondElse name first, span⟩ := by
  rw [σ.view_moved]
  rcases σ.places with hshift | hview
  · rw [hshift]
    rfl
  · exact hview _ _

theorem length_stack_matcher
    (m : Matcher) :
    (σ.matcher m).stack.length = m.stack.length :=
  List.length_map _

theorem add_matcher
    {op : Op}
    (h : σ.op op = [op])
    (m : Matcher) :
    (σ.matcher m).add op = σ.matcher (m.add op) := by
  rw [matcher_add, h]
  rfl

section Marks

variable (names : Names) (outer : Nat) (m : Matcher) (span : Span)

theorem mark_interpolation
    (p : PathExpr) :
    (σ.matcher m).mark names outer (span.moved σ.shift) (.interpolation p) =
      (m.mark names outer span (.interpolation p)).map σ.matcher := by
  simp only [Matcher.mark, length_stack_matcher]
  cases Compile.checkPath (outer + m.stack.length) p with
  | error cause =>
      rfl
  | ok path =>
      exact congrArg Except.ok (σ.add_matcher (σ.op_interpolation path) m)

theorem mark_inclusion
    (name : Bytes) (context : Option PathExpr)
    (parameters : List (Bytes × Operand PathExpr Literal)) :
    (σ.matcher m).mark names outer (span.moved σ.shift) (.inclusion name context parameters) =
      (m.mark names outer span (.inclusion name context parameters)).map σ.matcher := by
  simp only [Matcher.mark, length_stack_matcher]
  split
  · cases context.mapM (Compile.checkPath (outer + m.stack.length)) with
    | error cause =>
        rfl
    | ok context =>
        cases parameters.mapM (Compile.checkNamed (outer + m.stack.length)) with
        | error cause =>
            rfl
        | ok parameters =>
            exact congrArg Except.ok
              (σ.add_matcher (σ.op_inclusion name context parameters) m)
  · rfl

theorem mark_opening
    (name : Bytes) (arguments : List Argument) (synthetic : Bool) :
    (σ.matcher m).mark names outer (span.moved σ.shift) (.opening name arguments synthetic) =
      (m.mark names outer span (.opening name arguments synthetic)).map σ.matcher := by
  simp only [Matcher.mark, length_stack_matcher]
  split
  · cases Compile.checkArguments (outer + m.stack.length) arguments with
    | error cause =>
        rfl
    | ok inputs =>
        refine congrArg Except.ok ?_
        simp [matcher, block, σ.ops_nil]
  · rfl

theorem mark_closing
    (name : Bytes) :
    (σ.matcher m).mark names outer (span.moved σ.shift) (.closing name) =
      (m.mark names outer span (.closing name)).map σ.matcher := by
  obtain ⟨stack, ops⟩ := m
  cases stack with
  | nil =>
      rfl
  | cons b stack =>
      have hname : (σ.block b).name = b.name := rfl
      have hstack : (σ.matcher ⟨b :: stack, ops⟩).stack = σ.block b :: stack.map σ.block := rfl
      simp only [Matcher.mark, hstack, hname]
      split
      · refine congrArg Except.ok ?_
        rw [matcher_add, σ.op_block_op]
        rfl
      · rfl

/-- The failure for a second `else` says where the first one stands. -/
theorem fragment_otherwise :
    σ.Agrees σ.matcher ((σ.matcher m).fragment names outer ⟨span.moved σ.shift, .otherwise⟩)
      (m.fragment names outer ⟨span, .otherwise⟩) := by
  obtain ⟨stack, ops⟩ := m
  cases stack with
  | nil =>
      exact congrArg Except.error (σ.view_moved _ span)
  | cons b stack =>
      obtain ⟨span', name, arguments, named, synthetic, body, inverse⟩ := b
      cases inverse with
      | none =>
          refine congrArg Except.ok ?_
          simp [matcher, block, σ.ops_nil]
          rfl
      | some second =>
          exact congrArg Except.error (σ.view_secondElse name second.1 span)

variable {names outer m span}

/-- A mark that is matched alike fails alike in the view, at the place that it is moved to. -/
theorem fragment_of_mark
    {mark : Mark}
    (h : (σ.matcher m).mark names outer (span.moved σ.shift) mark =
      (m.mark names outer span mark).map σ.matcher) :
    σ.Agrees σ.matcher ((σ.matcher m).fragment names outer ⟨span.moved σ.shift, mark⟩)
      (m.fragment names outer ⟨span, mark⟩) := by
  simp only [Matcher.fragment, h]
  cases m.mark names outer span mark with
  | error cause =>
      exact congrArg Except.error (σ.view_moved cause span)
  | ok m' =>
      rfl

end Marks

/-- A mark that is no literal is matched alike. -/
theorem fragment_mark
    (names : Names) (outer : Nat) (m : Matcher) (span : Span) {mark : Mark}
    (hmark : ∀ s, mark ≠ .literal s) :
    σ.Agrees σ.matcher ((σ.matcher m).fragment names outer ⟨span.moved σ.shift, mark⟩)
      (m.fragment names outer ⟨span, mark⟩) := by
  cases mark with
  | literal s =>
      exact absurd rfl (hmark s)
  | interpolation p =>
      exact σ.fragment_of_mark (σ.mark_interpolation names outer m span p)
  | inclusion name context parameters =>
      exact σ.fragment_of_mark (σ.mark_inclusion names outer m span name context parameters)
  | opening name arguments synthetic =>
      exact σ.fragment_of_mark (σ.mark_opening names outer m span name arguments synthetic)
  | otherwise =>
      exact σ.fragment_otherwise names outer m span
  | closing name =>
      exact σ.fragment_of_mark (σ.mark_closing names outer m span name)

/-- One fragment. -/
theorem fragment_eq
    (names : Names) (outer : Nat) (m : Matcher) (f : Fragment) :
    σ.Agrees σ.matcher
      (((f.mark.respell σ.cut).map (Fragment.mk (f.span.moved σ.shift))).foldlM
        (Matcher.fragment names outer) (σ.matcher m))
      (m.fragment names outer f) := by
  obtain ⟨span, mark⟩ := f
  have hsingle : ∀ f : Fragment, [f].foldlM (Matcher.fragment names outer) (σ.matcher m) =
      (σ.matcher m).fragment names outer f := by
    intro f
    rw [List.foldlM_cons]
    cases (σ.matcher m).fragment names outer f <;> rfl
  cases mark with
  | literal s =>
      have hliterals : ∀ (l : List Bytes) (m : Matcher),
          ((l.map Mark.literal).map (Fragment.mk (span.moved σ.shift))).foldlM
            (Matcher.fragment names outer) m = .ok (m.addAll (l.map .literal)) := by
        intro l
        induction l with
        | nil =>
            exact fun m => rfl
        | cons s rest ih =>
            exact fun m => ih (m.add (.literal s))
      simp only [Mark.respell, hliterals]
      refine congrArg Except.ok ?_
      rw [← σ.op_literal, ← matcher_add]
  | interpolation | opening | otherwise | closing | inclusion =>
      simp only [Mark.respell, List.map_cons, List.map_nil, hsingle]
      exact σ.fragment_mark names outer m span (by simp)

theorem foldlM_eq
    (names : Names) (outer : Nat) (m : Matcher) (fs : List Fragment) :
    σ.Agrees σ.matcher ((σ.fragments fs).foldlM (Matcher.fragment names outer) (σ.matcher m))
      (fs.foldlM (Matcher.fragment names outer) m) := by
  induction fs generalizing m with
  | nil =>
      rw [σ.fragments_nil]
      rfl
  | cons f rest ih =>
      rw [σ.fragments_cons, List.foldlM_append, List.foldlM_cons]
      exact (σ.fragment_eq names outer m f).bind σ ih

theorem finish_eq
    (m : Matcher) :
    σ.Agrees σ.ops (σ.matcher m).finish m.finish := by
  obtain ⟨stack, ops⟩ := m
  cases stack with
  | nil =>
      rfl
  | cons b stack =>
      exact congrArg Except.error (σ.view_moved _ b.span)

/-- The fragments of an attribute value. -/
theorem fragments_eq
    (names : Names) (outer : Nat) (fs : List Fragment) :
    σ.Agrees σ.ops (Compile.fragments names outer (σ.fragments fs))
      (Compile.fragments names outer fs) := by
  have hsteps := σ.foldlM_eq names outer {} fs
  rw [σ.matcher_empty] at hsteps
  exact hsteps.bind σ σ.finish_eq

/-- The fragments of a name. -/
theorem name_eq
    (names : Names) (outer : Nat) (fs : List Fragment) :
    σ.Agrees σ.nameOps (Compile.fragments names outer (σ.name fs))
      (Compile.fragments names outer fs) := by
  rcases σ.names with ⟨hname, hops⟩ | ⟨hname, hops⟩
  · rw [hname, hops, id, Agrees]
    cases Compile.fragments names outer fs <;> rfl
  · rw [hname, hops]
    exact σ.fragments_eq names outer fs

theorem attributeOps_eq
    (names : Names) (outer : Nat) (a : Bytes × List Fragment) :
    σ.Agrees (fun b => (b.1, σ.ops b.2))
      (Compile.attributeOps names outer (a.1, σ.fragments a.2))
      (Compile.attributeOps names outer a) :=
  (σ.fragments_eq names outer a.2).bind σ fun _ => rfl

/-- Texts of one fragment each are a single text. -/
theorem nodes_texts
    (names : Names) (outer : Nat) (m : Matcher) (fs : List Fragment) (rest : List Tree) :
    Compile.nodes names outer m ((fs.map fun f => .text f.span [f]) ++ rest) =
      fs.foldlM (Matcher.fragment names outer) m >>= fun m' =>
        Compile.nodes names outer m' rest := by
  induction fs generalizing m with
  | nil =>
      rfl
  | cons f fs ih =>
      rw [List.map_cons, List.cons_append, Compile.nodes, Compile.node, List.foldlM_cons,
        List.foldlM_cons]
      cases m.fragment names outer f with
      | error fault =>
          rfl
      | ok m' =>
          exact ih m'

mutual

/-- A node in front of others. -/
theorem node_eq
    (names : Names) (outer : Nat) (m : Matcher) (t : Tree) {rest rest' : List Tree}
    (hrest : ∀ m', σ.Agrees σ.ops (Compile.nodes names outer (σ.matcher m') rest)
      (Compile.nodes names outer m' rest')) :
    σ.Agrees σ.ops (Compile.nodes names outer (σ.matcher m) (σ.tree t ++ rest))
      (Compile.nodes names outer m (t :: rest')) := by
  rw [Compile.nodes]
  cases t with
  | text span fs =>
      rw [σ.tree_text, nodes_texts, Compile.node]
      exact (σ.foldlM_eq names outer m fs).bind σ hrest
  | element span name attributes children =>
      have hchildren := nodes_eq names (outer + m.stack.length) {} children
      rw [σ.matcher_empty] at hchildren
      have hvalues := Agrees.mapM σ (σ.attributeOps_eq names (outer + m.stack.length)) attributes
      rw [σ.tree_element, List.singleton_append, Compile.nodes, Compile.node, Compile.node,
        length_stack_matcher, List.mapM_map]
      refine Agrees.bind σ ?_ hrest
      refine (σ.name_eq names _ name).bind σ fun nameOps => ?_
      refine hvalues.bind σ fun values => hchildren.bind σ fun childOps => ?_
      refine congrArg Except.ok ?_
      rw [matcher_add, σ.op_element]
      rfl

/-- Compiling commutes with respelling. -/
theorem nodes_eq
    (names : Names) (outer : Nat) (m : Matcher) (trees : List Tree) :
    σ.Agrees σ.ops (Compile.nodes names outer (σ.matcher m) (σ.trees trees))
      (Compile.nodes names outer m trees) := by
  cases trees with
  | nil =>
      rw [σ.trees_nil, Compile.nodes, Compile.nodes]
      exact σ.finish_eq m
  | cons t rest =>
      rw [σ.trees_cons]
      exact node_eq names outer m t fun m' => nodes_eq names outer m' rest

end

theorem forest_eq
    (names : Names) (trees : List Tree) :
    σ.Agrees σ.ops (Compile.forest names (σ.trees trees)) (Compile.forest names trees) := by
  have hnodes := σ.nodes_eq names 0 {} trees
  rwa [σ.matcher_empty] at hnodes

end Respelling

end Stencil
