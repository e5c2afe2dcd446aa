import Stencil.Proofs.Compile.Bytewise
import Stencil.Proofs.Render.Thinning

/-!
# Rendering byte by byte

A program and the same program spelled byte by byte give forests that are written alike: literals are
cut differently, which neither markup nor text shows.  A helper gets to see the nodes that its
sections give, so it must be one that goes on alike for forests that are written alike, as the
helpers that every engine has do.

Results: `Helper.steady_builtins`, and `render_html_of_bytewise_eq` for programs that are spelled
alike.
-/

namespace Stencil

/-! ## Forests that are written alike -/

namespace Node

/-- Forests with the same markup and the same text. -/
structure Alike (ns ms : List Node) : Prop where
  writable : allWritable ns = allWritable ms
  html : forestHtml ns = forestHtml ms
  text : textOf ns = textOf ms

theorem Alike.refl
    (ns : List Node) :
    Alike ns ns :=
  ⟨rfl, rfl, rfl⟩

theorem Alike.joins :
    Joins Alike where
  nil := .refl []
  append := by
    intro ns ms ns' ms' h h'
    refine ⟨?_, ?_, ?_⟩
    · rw [allWritable_append, allWritable_append, h.writable, h'.writable]
    · rw [forestHtml_append, forestHtml_append, h.html, h'.html]
    · rw [textOf_append, textOf_append, h.text, h'.text]

theorem Alike.html_eq
    {ns ms : List Node}
    (h : Alike ns ms) :
    Node.html ns = Node.html ms := by
  rw [Node.html, Node.html, h.writable, h.html]

theorem Alike.element
    {ns ms : List Node}
    (tag : Bytes) (attributes : List (Bytes × Bytes))
    (h : Alike ns ms) :
    Alike [.element tag attributes ns] [.element tag attributes ms] := by
  refine ⟨?_, ?_, ?_⟩
  · simp only [allWritable, isWritable, h.writable]
  · simp only [forestHtml, toHtml, h.html]
  · simp only [textOf, content, h.text]

/-- A text and its bytes one by one. -/
theorem alike_bytes
    (s : Bytes) :
    Alike [.text s] (s.map fun b => .text [b]) := by
  induction s with
  | nil =>
      exact ⟨rfl, rfl, rfl⟩
  | cons b s ih =>
      refine ⟨ih.writable, ?_, ?_⟩
      · change _ = toHtml (.text [b]) ++ forestHtml (s.map fun b => .text [b])
        rw [← ih.html]
        simp only [forestHtml, toHtml, List.append_nil, Text.escapeHtml, List.flatMap_cons,
          List.flatMap_nil]
      · change _ = content (.text [b]) ++ textOf (s.map fun b => .text [b])
        rw [← ih.text]
        simp only [textOf, content, List.append_nil, List.singleton_append]

end Node

/-! ## Helpers -/

namespace Action

/-- Two courses of action that render the same sections in the same contexts, and that go on alike
when forests come out that are written alike. -/
inductive Alike : Action → Action → Prop
  | done (result : Datum) : Alike (.done result) (.done result)
  | nodes {ns ms : List Node} : Node.Alike ns ms → Alike (.done (.nodes ns)) (.done (.nodes ms))
  | fail (e : RenderError) : Alike (.fail e) (.fail e)
  | render {part : Section} {inner : Value} {outer : Scope} {metadata : Metadata}
      {next next' : Except RenderError (List Node) → Action} :
      (∀ o o', Corresponds Node.Alike o o' → Alike (next o) (next' o')) →
      Alike (.render part inner outer metadata next) (.render part inner outer metadata next')

theorem alike_showSection
    (part : Section) (inner : Value) (outer : Scope) :
    Alike (showSection part inner outer) (showSection part inner outer) := by
  refine .render fun o o' h => ?_
  cases h with
  | ok hnodes =>
      exact .nodes hnodes
  | error e =>
      exact .fail e

theorem alike_showEach
    (outer : Scope) (passes : List (Value × Metadata)) {shown shown' : List Node}
    (hshown : Node.Alike shown shown') :
    Alike (showEach outer passes shown) (showEach outer passes shown') := by
  induction passes generalizing shown shown' with
  | nil =>
      exact .nodes hshown
  | cons p rest ih =>
      refine .render fun o o' h => ?_
      cases h with
      | ok hnodes =>
          exact ih (Node.Alike.joins.append hshown hnodes)
      | error e =>
          exact .fail e

end Action

namespace Helper

/-- A helper that sees no difference between forests that are written alike. -/
def Steady (helper : Helper) : Prop :=
  ∀ a s hasInverse, Action.Alike (helper a s hasInverse) (helper a s hasInverse)

/-- The helpers that every engine has are steady. -/
theorem steady_builtins
    {name : Bytes} {helper : Helper}
    (h : builtins.lookup name = some helper) :
    helper.Steady :=
  fun a s hasInverse =>
    builtin_cases (motive := fun x => x.Alike x) (Fields.mem_of_lookup h) a s hasInverse
      (fun part => Action.alike_showSection part s.data s)
      (Action.alike_showSection .body (a.nth 0) s)
      (fun _ _ => Action.alike_showEach s _ (.refl []))
      (fun _ _ _ => Action.alike_showEach s _ (.refl [])) fun _ => .fail _

end Helper

/-! ## Programs -/

/-- In any contexts, level runs give forests that are written alike and stay level. -/
abbrev InStep : Render → Render → Prop := Lockstep (fun _ => True) Node.Alike

theorem Action.Alike.follows
    {action action' : Action}
    (h : action.Alike action') :
    action.Follows (fun _ => True) Node.Alike action' := by
  induction h with
  | done result =>
      exact .done (.same fun ns _ => .refl ns)
  | nodes hnodes =>
      exact .done (.nodes hnodes)
  | fail e =>
      exact .fail e
  | render _ ih =>
      exact .render trivial ih

/-- Two linkages with the same helpers, all of them steady, whose partials are in step. -/
structure Linkage.InStep (l l' : Linkage) : Prop where
  helper : l.helper = l'.helper
  steady : ∀ name helper, l.helper name = some helper → helper.Steady
  bound : l.bound = l'.bound
  inclusion : ∀ name, Option.Rel Stencil.InStep (l.inclusion name) (l'.inclusion name)

namespace Op

variable {l l' : Linkage}

theorem renderAll_literals
    (l : Linkage) (s : Bytes) (scope : Scope) (r : Run) :
    renderAll l (s.map fun b => .literal [b]) scope r = (s.map fun b => .text [b], r) := by
  induction s with
  | nil =>
      rfl
  | cons b s ih =>
      simp only [List.map_cons, renderAll, Render.append, render, ih, List.singleton_append]

mutual

/-- A step and its spelling byte by byte. -/
theorem inStep_bytewise
    (hl : l.InStep l') :
    ∀ op : Op, InStep (render l op) (renderAll l' op.bytewise)
  | .literal v, s, r, r', hs, hr => by
      simp only [render, bytewise, renderAll_literals]
      exact ⟨Node.alike_bytes v, hr⟩
  | .interpolation p, s, r, r', hs, hr => by
      simp only [bytewise, renderAll_singleton, render]
      exact ⟨.refl _, hr⟩
  | .element name attributes children, s, r, r', hs, hr => by
      obtain ⟨hattributes, hr⟩ := inStep_attributes hl attributes s r r' hr
      obtain ⟨hname, hr⟩ := inStep_bytewiseAll hl name s _ _ hs hr
      obtain ⟨hchildren, hr⟩ := inStep_bytewiseAll hl children s _ _ hs hr
      simp only [bytewise, renderAll_singleton, render]
      refine ⟨?_, hr⟩
      rw [← hname.text, ← hattributes]
      exact .element _ _ hchildren
  | .block name arguments named body inverse synthetic, s, r, r', hs, hr => by
      simp only [bytewise, renderAll_singleton, render]
      exact Lockstep.block Node.Alike.joins (congrFun hl.helper name)
        (fun helper hhelper s i _ => (hl.steady name helper hhelper _ s i).follows)
        (inStep_bytewiseAll hl body) (inStep_inverse hl inverse) s r r' hs hr
  | .inclusion name context parameters, s, r, r', hs, hr => by
      simp only [bytewise, renderAll_singleton, render]
      exact Lockstep.inclusion Node.Alike.joins hl.bound (hl.inclusion name) trivial hr
  | .unknown, s, r, r', hs, hr => by
      simp only [bytewise, renderAll_singleton, render]
      exact ⟨.refl [], hr⟩

/-- Steps and their spelling byte by byte. -/
theorem inStep_bytewiseAll
    (hl : l.InStep l') :
    ∀ ops : List Op, InStep (renderAll l ops) (renderAll l' (bytewiseAll ops))
  | [], s, r, r', hs, hr => by
      simp only [bytewiseAll, renderAll]
      exact ⟨.refl [], hr⟩
  | op :: rest, s, r, r', hs, hr => by
      simp only [bytewiseAll, renderAll_append, renderAll]
      exact Lockstep.append Node.Alike.joins (inStep_bytewise hl op) (inStep_bytewiseAll hl rest)
        s r r' hs hr

theorem inStep_attributes
    (hl : l.InStep l') :
    ∀ (attributes : List (Bytes × List Op)) (s : Scope) (r r' : Run), r.Level r' →
      (renderAttributes l attributes s r).1 =
          (renderAttributes l' (bytewiseAttributes attributes) s r').1 ∧
        (renderAttributes l attributes s r).2.Level
          (renderAttributes l' (bytewiseAttributes attributes) s r').2
  | [], s, r, r', hr => by
      simp only [bytewiseAttributes, renderAttributes]
      exact ⟨trivial, hr⟩
  | (key, value) :: rest, s, r, r', hr => by
      obtain ⟨hvalue, hr⟩ := inStep_bytewiseAll hl value s r r' trivial hr
      obtain ⟨hrest, hr⟩ := inStep_attributes hl rest s _ _ hr
      simp only [bytewiseAttributes, renderAttributes]
      exact ⟨by rw [hvalue.text, hrest], hr⟩

theorem inStep_inverse
    (hl : l.InStep l') :
    ∀ inverse : Option (List Op),
      Option.Rel InStep (renderInverse l inverse) (renderInverse l' (bytewiseInverse inverse))
  | none => by
      simp only [bytewiseInverse, renderInverse]
      exact .none
  | some ops => by
      simp only [bytewiseInverse, renderInverse]
      exact .some (inStep_bytewiseAll hl ops)

end

end Op

/-! ## Runs -/

namespace Registry

/-- A registry whose partials are spelled byte by byte. -/
def bytewise (reg : Registry) : Registry :=
  ⟨reg.helper, fun name => (reg.partialOps name).map Op.bytewiseAll⟩

/-- A registry whose helpers see no difference between forests that are written alike. -/
def Steady (reg : Registry) : Prop :=
  ∀ name helper, reg.helper name = some helper → helper.Steady

/-- The partials of a registry, by induction on how deep their calls may nest. -/
theorem Steady.inStep_link
    {reg : Registry}
    (hreg : reg.Steady)
    (bound : Option Nat) (fuel : Nat) :
    (reg.link bound fuel).InStep (reg.bytewise.link bound fuel) := by
  induction fuel with
  | zero =>
      refine ⟨rfl, hreg, rfl, fun name => ?_⟩
      simp only [link, bytewise]
      cases reg.partialOps name with
      | none =>
          exact .none
      | some ops =>
          exact .some fun s r r' _ hr => ⟨.refl [], hr.fail _⟩
  | succ fuel ih =>
      refine ⟨rfl, hreg, rfl, fun name => ?_⟩
      simp only [link, bytewise]
      cases reg.partialOps name with
      | none =>
          exact .none
      | some ops =>
          exact .some (Op.inStep_bytewiseAll ih ops)

end Registry

/-- A program and its spelling byte by byte fail alike, or write the same. -/
theorem render_html_bytewise
    {reg : Registry}
    (hreg : reg.Steady)
    (bound fuel : Nat) (ops : List Op) (data : Value) :
    (render reg bound fuel ops data).map Node.html =
      (render reg.bytewise bound fuel (Op.bytewiseAll ops) data).map Node.html := by
  have hlevel : Run.Level {} {} := ⟨rfl, rfl⟩
  unfold render
  simp only [Op.allKnown_bytewiseAll]
  split
  · have hlink := hreg.inStep_link (if bound = 0 then none else some bound)
      (if bound = 0 then fuel else bound)
    obtain ⟨hnodes, hend⟩ := Op.inStep_bytewiseAll hlink ops (Scope.root data) {} {} trivial
      hlevel
    unfold outcome
    rw [← hend.failure]
    split
    · rfl
    · exact congrArg Except.ok hnodes.html_eq
  · rfl

/-- Programs that are spelled alike fail alike, or write the same. -/
theorem render_html_of_bytewise_eq
    {reg : Registry}
    (hreg : reg.Steady)
    {ops ops' : List Op}
    (h : Op.bytewiseAll ops = Op.bytewiseAll ops')
    (bound fuel : Nat) (data : Value) :
    (render reg bound fuel ops data).map Node.html =
      (render reg bound fuel ops' data).map Node.html := by
  rw [render_html_bytewise hreg, h, ← render_html_bytewise hreg]

end Stencil
