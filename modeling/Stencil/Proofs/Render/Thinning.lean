import Mathlib.Data.List.Forall2
import Stencil.Proofs.Compile.Thinning
import Stencil.Proofs.Render.Lockstep

/-!
# Rendering without white space

A program of a well-formed template and the same program without the white space of its literals,
each with the partials that go with it, fail alike or give forests that differ in white space only.
The names of elements are the same on both sides, because they are not thinned and no partial is
called in them; everything else is compared by its ink.

Results: `Op.lockstep_thinAll` for programs, `Registry.paired_link` for the partials that they call,
and `render_thin`.
-/

namespace Stencil

/-! ## Forests -/

namespace Node

theorem textOf_append
    (ns ms : List Node) :
    textOf (ns ++ ms) = textOf ns ++ textOf ms := by
  induction ns with
  | nil =>
      rfl
  | cons n rest ih =>
      rw [List.cons_append, textOf, textOf, ih, List.append_assoc]

theorem forestHtml_append
    (ns ms : List Node) :
    forestHtml (ns ++ ms) = forestHtml ns ++ forestHtml ms := by
  induction ns with
  | nil =>
      rfl
  | cons n rest ih =>
      rw [List.cons_append, forestHtml, forestHtml, ih, List.append_assoc]

theorem allWritable_append
    (ns ms : List Node) :
    allWritable (ns ++ ms) = (allWritable ns && allWritable ms) := by
  induction ns with
  | nil =>
      rfl
  | cons n rest ih =>
      rw [List.cons_append, allWritable, allWritable, ih, Bool.and_assoc]

/-- Forests that differ in white space only: both can be written or none, and so differ their markup
and their texts. -/
structure SameInk (ns ms : List Node) : Prop where
  writable : allWritable ns = allWritable ms
  html : Text.SameInk (forestHtml ns) (forestHtml ms)
  text : Text.SameInk (textOf ns) (textOf ms)

theorem SameInk.joins :
    Joins SameInk where
  nil := ⟨rfl, .refl rfl, .refl rfl⟩
  append := by
    intro ns ms ns' ms' h h'
    refine ⟨?_, ?_, ?_⟩
    · rw [allWritable_append, allWritable_append, h.writable, h'.writable]
    · rw [forestHtml_append, forestHtml_append]
      exact h.html.append h'.html
    · rw [textOf_append, textOf_append]
      exact h.text.append h'.text

theorem SameInk.of_text
    {s t : Bytes}
    (h : Text.SameInk s t) :
    SameInk [.text s] [.text t] := by
  refine ⟨rfl, ?_, ?_⟩
  · simp only [forestHtml, toHtml, List.append_nil]
    exact h.escapeHtml
  · simp only [textOf, content, List.append_nil]
    exact h

/-- Attributes with the same names whose values differ in white space only. -/
def SameAttributes : List (Bytes × Bytes) → List (Bytes × Bytes) → Prop :=
  List.Forall₂ fun a b => a.1 = b.1 ∧ Stencil.isUtf8 a.1 = true ∧ Text.SameInk a.2 b.2

theorem SameAttributes.html
    {as bs : List (Bytes × Bytes)}
    (h : SameAttributes as bs) :
    Text.SameInk (as.flatMap attributeHtml) (bs.flatMap attributeHtml) := by
  induction h with
  | nil =>
      exact .refl rfl
  | @cons a b as bs hab _ ih =>
      obtain ⟨hkey, hutf8, hvalue⟩ := hab
      have hwritten : ∀ s, Text.SameInk (utf8 s) (utf8 s) := fun s => .refl (isUtf8_utf8 s)
      have hname : Text.SameInk a.1 b.1 := hkey ▸ .refl hutf8
      rw [List.flatMap_cons, List.flatMap_cons]
      exact ((((hwritten " ").append hname).append (hwritten "=\"")).append
        hvalue.escapeHtml |>.append (hwritten "\"")).append ih

/-- Elements with the same name. -/
theorem SameInk.element
    {tag : Bytes} {as bs : List (Bytes × Bytes)} {ns ms : List Node}
    (htag : Stencil.isUtf8 tag = true)
    (hattributes : SameAttributes as bs)
    (hchildren : SameInk ns ms) :
    SameInk [.element tag as ns] [.element tag bs ms] := by
  have hwritten : ∀ s, Text.SameInk (utf8 s) (utf8 s) := fun s => .refl (isUtf8_utf8 s)
  have hname : Text.SameInk tag tag := .refl htag
  have hopening := (((hwritten "<").append hname).append hattributes.html).append (hwritten ">")
  have hclosing := (((hchildren.html).append (hwritten "</")).append hname).append (hwritten ">")
  refine ⟨?_, ?_, ?_⟩
  · simp only [allWritable, isWritable, hchildren.writable]
  · simp only [forestHtml, toHtml, List.append_nil]
    refine hopening.append ?_
    split
    · exact .refl rfl
    · exact hclosing
  · simp only [textOf, content, List.append_nil]
    exact hchildren.text

mutual

theorem sameInk_singleton
    {n : Node}
    (h : n.isUtf8 = true) :
    SameInk [n] [n] := by
  cases n with
  | text s =>
      exact .of_text (.refl h)
  | raw s =>
      have hraw : Text.SameInk (s ++ []) (s ++ []) := by
        rw [List.append_nil]
        exact .refl h
      exact ⟨rfl, hraw, hraw⟩
  | element tag attributes children =>
      simp only [isUtf8, Bool.and_eq_true, List.all_eq_true] at h
      obtain ⟨⟨htag, hattributes⟩, hchildren⟩ := h
      refine .element htag ?_ (sameInk_refl hchildren)
      exact List.forall₂_same.2 fun a ha =>
        ⟨rfl, (hattributes a ha).1, .refl (hattributes a ha).2⟩
  | absent | reference =>
      exact ⟨rfl, .refl rfl, .refl rfl⟩

/-- A well-formed forest. -/
theorem sameInk_refl
    {ns : List Node}
    (h : allUtf8 ns = true) :
    SameInk ns ns := by
  cases ns with
  | nil =>
      exact SameInk.joins.nil
  | cons n rest =>
      rw [allUtf8, Bool.and_eq_true] at h
      exact SameInk.joins.append (sameInk_singleton h.1) (sameInk_refl h.2)

end

/-- The markup of forests that differ in white space only. -/
theorem SameInk.map_html
    {ns ms : List Node}
    (h : SameInk ns ms) :
    (Node.html ns).map Text.ink = (Node.html ms).map Text.ink := by
  unfold Node.html
  rw [h.writable]
  split
  · exact congrArg some h.html.ink_eq
  · rfl

/-- The same well-formed forest. -/
def Same (ns ms : List Node) : Prop := ns = ms ∧ allUtf8 ns = true

theorem Same.joins :
    Joins Same where
  nil := ⟨rfl, rfl⟩
  append := by
    rintro ns _ ns' _ ⟨rfl, h⟩ ⟨rfl, h'⟩
    exact ⟨rfl, by rw [allUtf8_append, h, h']; rfl⟩

end Node

/-! ## Programs -/

/-- Two linkages with the same helpers, which do not look at what their sections give, whose partials
are in lockstep up to white space. -/
structure Linkage.Paired (l l' : Linkage) : Prop where
  helper : l.helper = l'.helper
  uniform : ∀ name helper, l.helper name = some helper → helper.Uniform
  bound : l.bound = l'.bound
  inclusion : ∀ name, Option.Rel (Lockstep Scope.Encoded Node.SameInk) (l.inclusion name)
    (l'.inclusion name)

namespace Op

theorem renderAll_singleton
    (l : Linkage) (op : Op) :
    renderAll l [op] = render l op := by
  funext s r
  simp [renderAll, Render.append, Render.nothing]

theorem renderAll_append
    (l : Linkage) (ops more : List Op) :
    renderAll l (ops ++ more) = Render.append (renderAll l ops) (renderAll l more) := by
  induction ops with
  | nil =>
      rfl
  | cons op rest ih =>
      funext s r
      simp [renderAll, Render.append, ih]

theorem encoded_arguments
    {arguments : List Input} {named : List (Bytes × Input)}
    (h : ∀ a ∈ arguments, Operand.isUtf8 a = true)
    {s : Scope}
    (hs : s.Encoded) :
    Arguments.Encoded ⟨arguments.map (Operand.value s), namedValues s named⟩ :=
  List.forall_mem_map.2 fun a ha => hs.value (h a ha)

variable {l l' : Linkage}

theorem follows_of_paired
    (hl : l.Paired l')
    {R : List Node → List Node → Prop}
    (hR : Joins R)
    (name : Bytes) {arguments : List Input} (named : List (Bytes × Input))
    (h : ∀ a ∈ arguments, Operand.isUtf8 a = true)
    (helper : Helper)
    (hhelper : l.helper name = some helper)
    (s : Scope) (hasInverse : Bool)
    (hs : s.Encoded) :
    let a : Arguments := ⟨arguments.map (Operand.value s), namedValues s named⟩
    (helper a s hasInverse).Follows Scope.Encoded R (helper a s hasInverse) :=
  hl.uniform name helper hhelper R hR _ s hasInverse (encoded_arguments h hs) hs

mutual

/-- A step of a name renders the same, since no partial is called in it. -/
theorem same_render
    (hl : l.Paired l') :
    ∀ op : Op, (∀ o ∈ op.steps, o.isInline = true ∧ o.Encoded) →
      (∀ i ∈ op.inputs, Operand.isUtf8 i = true) →
        Lockstep Scope.Encoded Node.Same (render l op) (render l' op)
  | .literal v, hsteps, _, s, r, r', hs, hr => by
      have hutf8 : isUtf8 v = true := (hsteps _ (mem_steps_self _)).2
      simp only [render]
      exact ⟨⟨rfl, by rw [Node.allUtf8, Node.isUtf8, hutf8]; rfl⟩, hr⟩
  | .interpolation p, _, _, s, r, r', hs, hr => by
      simp only [render]
      exact ⟨⟨rfl, Value.allUtf8_display (hs.lookup p)⟩, hr⟩
  | .block name arguments named body inverse synthetic, hsteps, hinputs, s, r, r', hs, hr => by
      simp only [steps, List.mem_cons, List.mem_append] at hsteps
      simp only [inputs, List.mem_append] at hinputs
      have hbody := same_renderAll hl body (fun o ho => hsteps o (.inr (.inl ho)))
        fun i hi => hinputs i (.inl (.inr hi))
      have hinverse := same_renderInverse hl inverse (fun o ho => hsteps o (.inr (.inr ho)))
        fun i hi => hinputs i (.inr hi)
      simp only [render]
      have hfollows := follows_of_paired hl Node.Same.joins name named fun a ha =>
        hinputs a (.inl (.inl (.inl ha)))
      exact Lockstep.block Node.Same.joins (congrFun hl.helper name) hfollows hbody hinverse
        s r r' hs hr
  | .element name attributes children, hsteps, _, _, _, _, _, _ => by
      cases (hsteps _ (mem_steps_self _)).1
  | .inclusion name context parameters, hsteps, _, _, _, _, _, _ => by
      cases (hsteps _ (mem_steps_self _)).1
  | .unknown, hsteps, _, _, _, _, _, _ => by
      cases (hsteps _ (mem_steps_self _)).1

theorem same_renderAll
    (hl : l.Paired l') :
    ∀ ops : List Op, (∀ o ∈ allSteps ops, o.isInline = true ∧ o.Encoded) →
      (∀ i ∈ allInputs ops, Operand.isUtf8 i = true) →
        Lockstep Scope.Encoded Node.Same (renderAll l ops) (renderAll l' ops)
  | [], _, _ => by
      simp only [renderAll]
      exact .nothing Node.Same.joins
  | op :: rest, hsteps, hinputs => by
      simp only [allSteps, List.mem_append] at hsteps
      simp only [allInputs, List.mem_append] at hinputs
      have hop := same_render hl op (fun o ho => hsteps o (.inl ho)) fun i hi => hinputs i (.inl hi)
      have hrest := same_renderAll hl rest (fun o ho => hsteps o (.inr ho))
        fun i hi => hinputs i (.inr hi)
      simp only [renderAll]
      exact .append Node.Same.joins hop hrest

theorem same_renderInverse
    (hl : l.Paired l') :
    ∀ inverse : Option (List Op), (∀ o ∈ inverseSteps inverse, o.isInline = true ∧ o.Encoded) →
      (∀ i ∈ inverseInputs inverse, Operand.isUtf8 i = true) →
        Option.Rel (Lockstep Scope.Encoded Node.Same) (renderInverse l inverse) (renderInverse l' inverse)
  | none, _, _ => by
      simp only [renderInverse]
      exact .none
  | some ops, hsteps, hinputs => by
      simp only [renderInverse]
      exact .some (same_renderAll hl ops hsteps hinputs)

end

mutual

/-- A step and what is left of it without white space. -/
theorem lockstep_thin
    (hl : l.Paired l') :
    ∀ op : Op, (∀ o ∈ op.steps, o.Encoded) → (∀ i ∈ op.inputs, Operand.isUtf8 i = true) →
      Lockstep Scope.Encoded Node.SameInk (render l op) (renderAll l' op.thin)
  | .literal v, hsteps, _, s, r, r', hs, hr => by
      have hink := Text.sameInk_ink (hsteps _ (mem_steps_self _))
      have hnodes := Node.SameInk.of_text hink
      simp only [render, thin]
      split
      · next hempty =>
          rw [List.isEmpty_iff.1 hempty] at hnodes
          exact ⟨⟨hnodes.writable, hnodes.html, hnodes.text⟩, hr⟩
      · rw [renderAll_singleton, render]
        exact ⟨hnodes, hr⟩
  | .interpolation p, _, _, s, r, r', hs, hr => by
      simp only [thin, renderAll_singleton, render]
      exact ⟨Node.sameInk_refl (Value.allUtf8_display (hs.lookup p)), hr⟩
  | .element name attributes children, hsteps, hinputs, s, r, r', hs, hr => by
      obtain ⟨hinline, hkeys⟩ := hsteps _ (mem_steps_self _)
      simp only [steps, List.mem_cons, List.mem_append] at hsteps
      simp only [inputs, List.mem_append] at hinputs
      obtain ⟨hattributes, hr⟩ := lockstep_attributes hl attributes hkeys
        (fun o ho => hsteps o (.inr (.inl (.inr ho)))) (fun i hi => hinputs i (.inl (.inr hi)))
        s r r' hs hr
      obtain ⟨hname, hr⟩ := same_renderAll hl name
        (fun o ho => ⟨hinline o ho, hsteps o (.inr (.inl (.inl ho)))⟩)
        (fun i hi => hinputs i (.inl (.inl hi))) s _ _ hs hr
      obtain ⟨hchildren, hr⟩ := lockstep_thinAll hl children
        (fun o ho => hsteps o (.inr (.inr ho))) (fun i hi => hinputs i (.inr hi)) s _ _ hs hr
      simp only [thin, renderAll_singleton, render]
      refine ⟨?_, hr⟩
      rw [← hname.1]
      exact .element (Node.isUtf8_textOf hname.2) hattributes hchildren
  | .block name arguments named body inverse synthetic, hsteps, hinputs, s, r, r', hs, hr => by
      simp only [steps, List.mem_cons, List.mem_append] at hsteps
      simp only [inputs, List.mem_append] at hinputs
      have hbody := lockstep_thinAll hl body (fun o ho => hsteps o (.inr (.inl ho)))
        fun i hi => hinputs i (.inl (.inr hi))
      have hinverse := lockstep_inverse hl inverse (fun o ho => hsteps o (.inr (.inr ho)))
        fun i hi => hinputs i (.inr hi)
      simp only [thin, renderAll_singleton, render]
      have hfollows := follows_of_paired hl Node.SameInk.joins name named fun a ha =>
        hinputs a (.inl (.inl (.inl ha)))
      exact Lockstep.block Node.SameInk.joins (congrFun hl.helper name) hfollows hbody hinverse
        s r r' hs hr
  | .inclusion name context parameters, hsteps, hinputs, s, r, r', hs, hr => by
      have hkeys := hsteps _ (mem_steps_self _)
      have hbase : (context.elim s.data s.lookup).isUtf8 = true := by
        cases context with
        | none =>
            exact hs.data
        | some p =>
            exact hs.lookup p
      have hparameters : ∀ a ∈ namedValues s parameters, isUtf8 a.1 = true ∧ a.2.isUtf8 = true :=
        List.forall_mem_map.2 fun a ha =>
          ⟨hkeys a ha, hs.value (hinputs a.2 (List.mem_map_of_mem ha))⟩
      simp only [thin, renderAll_singleton, render]
      exact Lockstep.inclusion Node.SameInk.joins hl.bound (hl.inclusion name)
        (Scope.All.root (Value.isUtf8_includedData hbase hparameters)) hr
  | .unknown, _, _, s, r, r', hs, hr => by
      simp only [thin, renderAll_singleton, render]
      exact Lockstep.nothing Node.SameInk.joins s r r' hs hr

/-- Steps and what is left of them without white space. -/
theorem lockstep_thinAll
    (hl : l.Paired l') :
    ∀ ops : List Op, (∀ o ∈ allSteps ops, o.Encoded) →
      (∀ i ∈ allInputs ops, Operand.isUtf8 i = true) →
        Lockstep Scope.Encoded Node.SameInk (renderAll l ops) (renderAll l' (thinAll ops))
  | [], _, _ => by
      simp only [thinAll, renderAll]
      exact .nothing Node.SameInk.joins
  | op :: rest, hsteps, hinputs => by
      simp only [allSteps, List.mem_append] at hsteps
      simp only [allInputs, List.mem_append] at hinputs
      have hop := lockstep_thin hl op (fun o ho => hsteps o (.inl ho))
        fun i hi => hinputs i (.inl hi)
      have hrest := lockstep_thinAll hl rest (fun o ho => hsteps o (.inr ho))
        fun i hi => hinputs i (.inr hi)
      simp only [thinAll, renderAll_append, renderAll]
      exact .append Node.SameInk.joins hop hrest

theorem lockstep_attributes
    (hl : l.Paired l') :
    ∀ attributes : List (Bytes × List Op), (∀ a ∈ attributes, isUtf8 a.1 = true) →
      (∀ o ∈ attributeSteps attributes, o.Encoded) →
      (∀ i ∈ attributeInputs attributes, Operand.isUtf8 i = true) →
        ∀ (s : Scope) (r r' : Run), s.Encoded → r.Level r' →
          Node.SameAttributes (renderAttributes l attributes s r).1
              (renderAttributes l' (thinAttributes attributes) s r').1 ∧
            (renderAttributes l attributes s r).2.Level
              (renderAttributes l' (thinAttributes attributes) s r').2
  | [], _, _, _, s, r, r', _, hr => by
      simp only [thinAttributes, renderAttributes]
      exact ⟨.nil, hr⟩
  | (key, value) :: rest, hkeys, hsteps, hinputs, s, r, r', hs, hr => by
      obtain ⟨hkey, hmore⟩ := List.forall_mem_cons.1 hkeys
      simp only [attributeSteps, List.mem_append] at hsteps
      simp only [attributeInputs, List.mem_append] at hinputs
      obtain ⟨hvalue, hr⟩ := lockstep_thinAll hl value (fun o ho => hsteps o (.inl ho))
        (fun i hi => hinputs i (.inl hi)) s r r' hs hr
      obtain ⟨hrest, hr⟩ := lockstep_attributes hl rest hmore (fun o ho => hsteps o (.inr ho))
        (fun i hi => hinputs i (.inr hi)) s _ _ hs hr
      simp only [thinAttributes, renderAttributes]
      exact ⟨.cons ⟨rfl, hkey, hvalue.text⟩ hrest, hr⟩

theorem lockstep_inverse
    (hl : l.Paired l') :
    ∀ inverse : Option (List Op), (∀ o ∈ inverseSteps inverse, o.Encoded) →
      (∀ i ∈ inverseInputs inverse, Operand.isUtf8 i = true) →
        Option.Rel (Lockstep Scope.Encoded Node.SameInk) (renderInverse l inverse)
          (renderInverse l' (thinInverse inverse))
  | none, _, _ => by
      simp only [thinInverse, renderInverse]
      exact .none
  | some ops, hsteps, hinputs => by
      simp only [thinInverse, renderInverse]
      exact .some (lockstep_thinAll hl ops hsteps hinputs)

end

end Op

/-! ## Runs -/

/-- A program whose steps and constants are well-formed. -/
structure Op.Wellformed (ops : List Op) : Prop where
  steps : ∀ op ∈ Op.allSteps ops, op.Encoded
  inputs : ∀ i ∈ Op.allInputs ops, Operand.isUtf8 i = true

/-- A registry whose partials have no white space in their literals. -/
def Registry.thin (reg : Registry) : Registry :=
  ⟨reg.helper, fun name => (reg.partialOps name).map Op.thinAll⟩

/-- A registry of well-formed partials and of helpers that do not look at what their sections
give. -/
structure Registry.Wellformed (reg : Registry) : Prop where
  helper : ∀ name helper, reg.helper name = some helper → helper.Uniform
  partialOps : ∀ name ops, reg.partialOps name = some ops → Op.Wellformed ops

/-- The partials of a registry with and without white space, by induction on how deep their calls
may nest. -/
theorem Registry.Wellformed.paired_link
    {reg : Registry}
    (hreg : reg.Wellformed)
    (bound : Option Nat) (fuel : Nat) :
    (reg.link bound fuel).Paired (reg.thin.link bound fuel) := by
  induction fuel with
  | zero =>
      refine ⟨rfl, hreg.helper, rfl, fun name => ?_⟩
      simp only [link, thin]
      cases reg.partialOps name with
      | none =>
          exact .none
      | some ops =>
          exact .some fun s r r' _ hr => ⟨Node.SameInk.joins.nil, hr.fail _⟩
  | succ fuel ih =>
      refine ⟨rfl, hreg.helper, rfl, fun name => ?_⟩
      simp only [link, thin]
      cases hops : reg.partialOps name with
      | none =>
          exact .none
      | some ops =>
          have hpartial := hreg.partialOps name ops hops
          exact .some (Op.lockstep_thinAll ih ops hpartial.steps hpartial.inputs)

/-- What is written of a result, without its white space. -/
def Render.inkOf (result : Except RenderError (List Node)) : Except RenderError (Option Bytes) :=
  result.map fun ns => (Node.html ns).map Text.ink

/-- A program and its thinned form fail alike, or write the same up to white space. -/
theorem render_thin
    {reg : Registry} {ops : List Op} {data : Value}
    (hreg : reg.Wellformed)
    (hops : Op.Wellformed ops)
    (hdata : data.isUtf8 = true)
    (bound fuel : Nat) :
    Render.inkOf (render reg bound fuel ops data) =
      Render.inkOf (render reg.thin bound fuel (Op.thinAll ops) data) := by
  have hlevel : Run.Level {} {} := ⟨rfl, rfl⟩
  unfold render
  simp only [Op.allKnown_thinAll]
  split
  · have hpaired := hreg.paired_link (if bound = 0 then none else some bound)
      (if bound = 0 then fuel else bound)
    obtain ⟨hnodes, hend⟩ := Op.lockstep_thinAll hpaired ops hops.steps hops.inputs _ {} {}
      (Scope.All.root hdata) hlevel
    unfold outcome
    rw [← hend.failure]
    split
    · rfl
    · exact congrArg Except.ok hnodes.map_html
  · rfl

end Stencil
