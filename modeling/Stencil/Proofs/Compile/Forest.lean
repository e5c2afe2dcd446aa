import Stencil.Compile
import Stencil.Proofs.Checks
import Stencil.Proofs.Chunk

/-!
# Forests and their parts

A forest is put together from the fragments of names, attribute values and texts, in the order in
which they are read.  What holds of each of these parts when it is read holds of all parts of the
forest, and the faults of reading are those of the parts.

Result: `Tree.ofEvents_inPlace`.
-/

namespace Stencil

/-! ## Results with faults in place -/

section InPlace

variable {α β : Type} {P : Span → Prop}

/-- A result with a property, or a fault with a span of some kind. -/
def InPlace (P : Span → Prop) (Q : α → Prop) : Except Fault α → Prop
  | .ok a => Q a
  | .error fault => P fault.span

theorem InPlace.bind
    {Q : α → Prop} {R : β → Prop} {x : Except Fault α} {f : α → Except Fault β}
    (hx : InPlace P Q x)
    (hf : ∀ a, Q a → InPlace P R (f a)) :
    InPlace P R (x >>= f) := by
  cases x with
  | ok a =>
      exact hf a hx
  | error fault =>
      exact hx

theorem InPlace.mapM
    {Q : β → Prop} {f : α → Except Fault β} {l : List α}
    (h : ∀ a ∈ l, InPlace P Q (f a)) :
    InPlace P (fun bs => ∀ b ∈ bs, Q b) (l.mapM f) := by
  induction l with
  | nil =>
      intro b hb
      cases hb
  | cons a rest ih =>
      rw [List.mapM_cons]
      refine (h a List.mem_cons_self).bind fun b hb => ?_
      refine (ih fun c hc => h c (List.mem_cons_of_mem a hc)).bind fun bs hbs => ?_
      intro c hc
      rcases List.mem_cons.1 hc with rfl | hc
      · exact hb
      · exact hbs c hc

theorem InPlace.foldlM
    {Q : β → Prop} {f : β → α → Except Fault β} {l : List α}
    (h : ∀ a ∈ l, ∀ b, Q b → InPlace P Q (f b a))
    {b : β}
    (hb : Q b) :
    InPlace P Q (l.foldlM f b) := by
  induction l generalizing b with
  | nil =>
      exact hb
  | cons a rest ih =>
      rw [List.foldlM_cons]
      refine (h a List.mem_cons_self b hb).bind fun c hc => ?_
      exact ih (fun d hd => h d (List.mem_cons_of_mem a hd)) hc

end InPlace

/-- A text without expressions is one literal. -/
theorem Fragment.read_of_not_occurs
    (isHelper : Bytes → Bool) (site : Site) {s : Bytes}
    (h : Bytes.occurs Markup.opener s = false) :
    Fragment.read isHelper site s =
      .ok (if s.isEmpty then [] else [⟨site.span 0 s.length, .literal (site.literal s)⟩]) := by
  rw [Fragment.read, scan_of_not_occurs h]
  cases s with
  | nil =>
      rfl
  | cons b s =>
      simp only [List.isEmpty_cons, Bool.false_eq_true, if_false, Fragment.ofChunks,
        Fragment.ofChunk, Chunk.source, Nat.zero_add]
      rfl

namespace Tree

/-- What the names, the attributes and the texts of a template may be. -/
structure Parts where
  name : List Fragment → Prop
  entry : Bytes × List Fragment → Prop
  text : List Fragment → Prop

/-- A tree that is put together from such parts. -/
inductive MadeOf (parts : Parts) : Tree → Prop where
  | text {span : Span} {fs : List Fragment} :
      parts.text fs → MadeOf parts (.text span fs)
  | element {span : Span} {name : List Fragment} {attributes : List (Bytes × List Fragment)}
      {children : List Tree} :
      parts.name name →
      (∀ a ∈ attributes, parts.entry a) →
      (∀ t ∈ children, MadeOf parts t) →
      MadeOf parts (.element span name attributes children)

/-- An open element that is put together from such parts. -/
structure Open.MadeOf (parts : Parts) (e : Open) : Prop where
  name : parts.name e.name
  attributes : ∀ a ∈ e.attributes, parts.entry a
  children : ∀ t ∈ e.children, t.MadeOf parts

variable {parts : Parts}

theorem Open.MadeOf.close
    {e : Open}
    (he : e.MadeOf parts)
    (stop : Nat) :
    (e.close stop).MadeOf parts :=
  .element he.name he.attributes he.children

theorem Open.MadeOf.append
    {e : Open} {t : Tree}
    (he : e.MadeOf parts)
    (ht : t.MadeOf parts) :
    Open.MadeOf parts { e with children := e.children ++ [t] } where
  name := he.name
  attributes := he.attributes
  children := List.forall_mem_append.2 ⟨he.children, List.forall_mem_singleton.2 ht⟩

namespace Builder

/-- Nodes added one after the other. -/
def attachAll (trees : List Tree) (b : Builder) : Builder := trees.foldl (fun b t => b.attach t) b

theorem attachAll_open
    (trees : List Tree) (e : Open) (stack : List Open) (roots : List Tree) :
    attachAll trees ⟨e :: stack, roots⟩ =
      ⟨{ e with children := e.children ++ trees } :: stack, roots⟩ := by
  induction trees generalizing e with
  | nil =>
      simp [attachAll]
  | cons t rest ih =>
      have hrest := ih { e with children := e.children ++ [t] }
      simpa [attachAll, attach] using hrest

theorem attachAll_roots
    (trees roots : List Tree) :
    attachAll trees ⟨[], roots⟩ = ⟨[], roots ++ trees⟩ := by
  induction trees generalizing roots with
  | nil =>
      simp [attachAll]
  | cons t rest ih =>
      simpa [attachAll, attach] using ih (roots ++ [t])

/-- A forest under construction that is put together from such parts. -/
structure MadeOf (parts : Parts) (b : Builder) : Prop where
  stack : ∀ e ∈ b.stack, e.MadeOf parts
  roots : ∀ t ∈ b.roots, t.MadeOf parts

theorem MadeOf.attach
    {b : Builder} {t : Tree}
    (hb : b.MadeOf parts)
    (ht : t.MadeOf parts) :
    (b.attach t).MadeOf parts := by
  obtain ⟨stack, roots⟩ := b
  cases stack with
  | nil =>
      exact ⟨hb.stack, List.forall_mem_append.2 ⟨hb.roots, List.forall_mem_singleton.2 ht⟩⟩
  | cons e stack =>
      obtain ⟨he, hstack⟩ := List.forall_mem_cons.1 hb.stack
      exact ⟨List.forall_mem_cons.2 ⟨he.append ht, hstack⟩, hb.roots⟩

theorem MadeOf.close
    {b : Builder}
    (hb : b.MadeOf parts)
    (stop : Nat) :
    (b.close stop).MadeOf parts := by
  obtain ⟨stack, roots⟩ := b
  cases stack with
  | nil =>
      exact hb
  | cons e stack =>
      obtain ⟨he, hstack⟩ := List.forall_mem_cons.1 hb.stack
      have hrest : MadeOf parts ⟨stack, roots⟩ := ⟨hstack, hb.roots⟩
      exact hrest.attach (he.close stop)

theorem finish_madeOf
    {stack : List Open} {roots : List Tree}
    (hstack : ∀ e ∈ stack, e.MadeOf parts)
    (hroots : ∀ t ∈ roots, t.MadeOf parts) :
    ∀ t ∈ finish roots stack, t.MadeOf parts := by
  fun_induction finish roots stack with
  | case1 =>
      exact hroots
  | case2 e =>
      have he := hstack e List.mem_cons_self
      exact List.forall_mem_append.2 ⟨hroots, List.forall_mem_singleton.2 (he.close _)⟩
  | case3 e outer stack ih =>
      obtain ⟨he, hrest⟩ := List.forall_mem_cons.1 hstack
      obtain ⟨houter, hrest⟩ := List.forall_mem_cons.1 hrest
      exact ih (List.forall_mem_cons.2 ⟨houter.append (he.close _), hrest⟩)

/-- An event whose name, attributes or text are read as such parts, or with faults in place. -/
def Supplies (r : Reading) (P : Span → Prop) (parts : Parts) : Markup.Event → Prop
  | .openTag name attributes span =>
    InPlace P parts.name (Fragment.read r.isHelper (.tag span) name) ∧
      ∀ a ∈ attributes, InPlace P parts.entry (readAttribute r span a)
  | .text raw span => InPlace P parts.text (readText r raw span)
  | .closeTag _ => True

/-- One event adds its parts. -/
theorem step_inPlace
    {r : Reading} {P : Span → Prop} {b : Builder} {e : Markup.Event}
    (he : Supplies r P parts e)
    (hb : b.MadeOf parts) :
    InPlace P (MadeOf parts) (step r b e) := by
  cases e with
  | openTag name attributes span =>
      refine he.1.bind fun fs hfs => ?_
      refine (InPlace.mapM he.2).bind fun read hread => ?_
      have hopen : Open.MadeOf parts ⟨span, fs, read, []⟩ :=
        ⟨hfs, hread, fun t ht => absurd ht List.not_mem_nil⟩
      exact ⟨List.forall_mem_cons.2 ⟨hopen, hb.stack⟩, hb.roots⟩
  | text raw span =>
      refine InPlace.bind he fun fs hfs => ?_
      cases fs with
      | nil =>
          exact hb
      | cons f more =>
          exact hb.attach (.text hfs)
  | closeTag span =>
      exact hb.close span.stop

end Builder

/-- The forest of events is put together from what they are read as. -/
theorem ofEvents_inPlace
    {r : Reading} {P : Span → Prop} {events : List Markup.Event}
    (h : ∀ e ∈ events, Builder.Supplies r P parts e) :
    InPlace P (fun trees => ∀ t ∈ trees, t.MadeOf parts) (ofEvents r events) := by
  have hempty : Builder.MadeOf parts Builder.empty :=
    ⟨fun e he => absurd he List.not_mem_nil, fun t ht => absurd ht List.not_mem_nil⟩
  have hsteps := InPlace.foldlM (fun e he b hb => Builder.step_inPlace (h e he) hb) hempty
  exact hsteps.bind fun b hb => Builder.finish_madeOf hb.stack hb.roots

end Tree
end Stencil
