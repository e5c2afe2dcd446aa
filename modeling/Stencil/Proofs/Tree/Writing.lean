import Stencil.Proofs.Compile.Forest

/-!
# Forests written back out

A forest is written back out in document order: an element as the place where it starts, its name
and attributes, its children, and the place where it stops.

The events of a source, with their texts read, are brought into the same form by keeping count of
the elements that are open.  A tag that closes none of them is left out, and so is a text without
fragments; elements that are open at the end are closed there, at the places where their tags end.

When events stand one after the other, a closed element encloses its descendants.  The elements that
were left open are the last root, its last child, and so on.

Result: `ofEvents_written`.
-/

namespace Stencil

namespace Markup

/-- The span of the token that an event comes from. -/
def Event.span : Event → Span
  | .openTag _ _ span => span
  | .text _ span => span
  | .closeTag span => span

/-- No event begins before the one in front of it ends, the first not before an offset. -/
def InOrder : (offset : Nat) → List Event → Prop
  | _, [] => True
  | offset, e :: rest =>
    offset ≤ e.span.start ∧ e.span.start ≤ e.span.stop ∧ InOrder e.span.stop rest

/-- How many elements are open after some events, when `depth` were open before.  A tag that closes
none of them is ignored. -/
def leftOpen : (depth : Nat) → List Event → Nat
  | depth, [] => depth
  | depth, .openTag .. :: rest => leftOpen (depth + 1) rest
  | depth, .text .. :: rest => leftOpen depth rest
  | depth, .closeTag _ :: rest => leftOpen (depth - 1) rest

end Markup

namespace Tree

/-- An event with its name, attributes or text read. -/
inductive Segmented where
  | opens (tag : Span) (name : List Fragment) (attributes : List (Bytes × List Fragment))
  | text (span : Span) (fragments : List Fragment)
  | closes (tag : Span)
deriving DecidableEq

/-- Reads the name, the attributes or the text of an event. -/
def Segmented.read (r : Reading) : Markup.Event → Except Fault Segmented
  | .openTag name attributes span => do
    let name ← Fragment.read r.isHelper (.tag span) name
    let attributes ← attributes.mapM (Builder.readAttribute r span)
    return .opens span name attributes
  | .text raw span => do
    return .text span (← Builder.readText r raw span)
  | .closeTag span => .ok (.closes span)

/-- One entry of a forest that is written out. -/
inductive Move where
  | opens (start : Nat) (name : List Fragment) (attributes : List (Bytes × List Fragment))
  | text (span : Span) (fragments : List Fragment)
  | closes (stop : Nat)
deriving DecidableEq

mutual

/-- A node written out: an element as its opening, its children and its closing. -/
def written : Tree → List Move
  | .text span fragments => [.text span fragments]
  | .element span name attributes children =>
    .opens span.start name attributes :: (writtenAll children ++ [.closes span.stop])

/-- The nodes of a list written out one after the other. -/
def writtenAll : List Tree → List Move
  | [] => []
  | t :: rest => t.written ++ writtenAll rest

end

/-- The events, written out with a balance kept: `tags` are the ends of the tags whose elements are
open, innermost first. -/
def balanced : (tags : List Nat) → List Segmented → List Move
  | tags, [] => tags.map .closes
  | tags, .opens tag name attributes :: rest =>
    .opens tag.start name attributes :: balanced (tag.stop :: tags) rest
  | tags, .text span fragments :: rest =>
    if fragments.isEmpty then balanced tags rest else .text span fragments :: balanced tags rest
  | [], .closes _ :: rest => balanced [] rest
  | _ :: tags, .closes tag :: rest => .closes tag.stop :: balanced tags rest

mutual

/-- The spans of a node and of all its descendants. -/
def spans : Tree → List Span
  | .text span _ => [span]
  | .element span _ _ children => span :: spansAll children

/-- The spans of the nodes of a list and of all their descendants. -/
def spansAll : List Tree → List Span
  | [] => []
  | t :: rest => t.spans ++ spansAll rest

end

/-- Every element of a tree encloses all its descendants. -/
inductive Nested : Tree → Prop
  | text {span : Span} {fragments : List Fragment} : Nested (.text span fragments)
  | element {span : Span} {name : List Fragment} {attributes : List (Bytes × List Fragment)}
      {children : List Tree} :
      (∀ s ∈ spansAll children, span.start ≤ s.start ∧ s.stop ≤ span.stop) →
      (∀ t ∈ children, Nested t) →
      Nested (.element span name attributes children)

/-- Every element of a forest encloses all its descendants, except for some elements that were left
open: the last root, the last of its children, and so on. -/
inductive NestedUpTo : (opened : Nat) → List Tree → Prop
  | none {trees : List Tree} : (∀ t ∈ trees, Nested t) → NestedUpTo 0 trees
  | last {opened : Nat} {front : List Tree} {span : Span} {name : List Fragment}
      {attributes : List (Bytes × List Fragment)} {children : List Tree} :
      (∀ t ∈ front, Nested t) →
      NestedUpTo opened children →
      NestedUpTo (opened + 1) (front ++ [.element span name attributes children])

/-! ## Reading first, building afterwards -/

namespace Builder

/-- An event that is read, added to a forest under construction. -/
def take (b : Builder) : Segmented → Builder
  | .opens tag name attributes => { b with stack := ⟨tag, name, attributes, []⟩ :: b.stack }
  | .text span fragments => if fragments.isEmpty then b else b.attach (.text span fragments)
  | .closes tag => b.close tag.stop

theorem step_eq_map_take
    (r : Reading) (b : Builder) (e : Markup.Event) :
    step r b e = (Segmented.read r e).map b.take := by
  cases e with
  | openTag name attributes span =>
      simp only [step, Segmented.read]
      cases Fragment.read r.isHelper (.tag span) name with
      | error fault =>
          rfl
      | ok fs =>
          cases attributes.mapM (readAttribute r span) <;> rfl
  | text raw span =>
      simp only [step, Segmented.read]
      cases readText r raw span <;> rfl
  | closeTag span =>
      rfl

theorem foldlM_step
    {r : Reading} {events : List Markup.Event} {moves : List Segmented}
    (h : events.mapM (Segmented.read r) = .ok moves)
    (b : Builder) :
    events.foldlM (step r) b = .ok (moves.foldl take b) := by
  induction events generalizing b moves with
  | nil =>
      cases h
      rfl
  | cons e rest ih =>
      simp only [List.mapM_cons, bind_eq_ok_iff, pure_eq_ok_iff] at h
      obtain ⟨move, hmove, more, hmore, rfl⟩ := h
      rw [List.foldlM_cons, step_eq_map_take, hmove]
      exact ih hmore (b.take move)

end Builder

/-! ## What is written so far -/

theorem writtenAll_append
    (front back : List Tree) :
    writtenAll (front ++ back) = writtenAll front ++ writtenAll back := by
  induction front with
  | nil =>
      rfl
  | cons t rest ih =>
      simp only [List.cons_append, writtenAll, ih, List.append_assoc]

theorem writtenAll_singleton
    (t : Tree) :
    writtenAll [t] = t.written := by
  simp only [writtenAll, List.append_nil]

namespace Builder

/-- The open elements written out, outermost first and without their closings. -/
def writtenStack : List Open → List Move
  | [] => []
  | e :: outer =>
    writtenStack outer ++ .opens e.span.start e.name e.attributes :: writtenAll e.children

/-- What a forest under construction is written out as so far. -/
def written (b : Builder) : List Move := writtenAll b.roots ++ writtenStack b.stack

theorem written_attach
    (t : Tree) (b : Builder) :
    (b.attach t).written = b.written ++ t.written := by
  obtain ⟨stack, roots⟩ := b
  cases stack with
  | nil =>
      simp only [attach, written, writtenStack, writtenAll_append, writtenAll_singleton,
        List.append_nil]
  | cons e outer =>
      simp only [attach, written, writtenStack, writtenAll_append, writtenAll_singleton,
        List.append_assoc, List.cons_append]

theorem written_close
    (e : Open) (outer : List Open) (roots : List Tree) (stop : Nat) :
    (close stop ⟨e :: outer, roots⟩).written =
      (⟨e :: outer, roots⟩ : Builder).written ++ [.closes stop] := by
  have hclose : close stop ⟨e :: outer, roots⟩ = attach (e.close stop) ⟨outer, roots⟩ := rfl
  rw [hclose, written_attach]
  simp only [written, writtenStack, Open.close, Tree.written, List.append_assoc, List.cons_append]

/-- At the end every open element is closed where its tag ends. -/
theorem written_finish
    (stack : List Open) (roots : List Tree) :
    writtenAll (finish roots stack) =
      (⟨stack, roots⟩ : Builder).written ++ stack.map fun e => .closes e.span.stop := by
  fun_induction finish roots stack with
  | case1 =>
      simp only [written, writtenStack, List.append_nil, List.map_nil]
  | case2 e =>
      simp only [writtenAll_append, writtenAll_singleton, written, writtenStack, Open.close,
        Tree.written, List.nil_append, List.map_cons, List.map_nil, List.append_assoc,
        List.cons_append]
  | case3 e outer stack ih =>
      have hclose := written_close e (outer :: stack) roots e.span.stop
      simp only [close, attach] at hclose
      rw [ih, hclose]
      simp only [List.map_cons, List.append_assoc, List.cons_append, List.nil_append]

/-- The run of all events, from any forest under construction. -/
theorem written_foldl_take
    (moves : List Segmented) (b : Builder) :
    writtenAll (finish (moves.foldl take b).roots (moves.foldl take b).stack) =
      b.written ++ balanced (b.stack.map fun e => e.span.stop) moves := by
  induction moves generalizing b with
  | nil =>
      simp only [List.foldl_nil, written_finish, balanced, List.map_map, Function.comp_def]
  | cons move rest ih =>
      rw [List.foldl_cons, ih]
      cases move with
      | opens tag name attributes =>
          simp only [take, written, writtenStack, writtenAll, List.map_cons, balanced,
            List.append_assoc, List.cons_append, List.nil_append]
      | text span fragments =>
          simp only [take, balanced]
          split
          · rfl
          · obtain ⟨stack, roots⟩ := b
            rw [written_attach]
            cases stack <;>
              simp only [attach, Tree.written, List.map_cons, List.map_nil, List.append_assoc,
                List.cons_append, List.nil_append]
      | closes tag =>
          obtain ⟨stack, roots⟩ := b
          cases stack with
          | nil =>
              rfl
          | cons e outer =>
              simp only [take, written_close, List.map_cons, balanced, List.append_assoc,
                List.cons_append, List.nil_append]
              cases outer <;> rfl

end Builder

/-! ## Where elements stand -/

theorem spansAll_append
    (front back : List Tree) :
    spansAll (front ++ back) = spansAll front ++ spansAll back := by
  induction front with
  | nil =>
      rfl
  | cons t rest ih =>
      simp only [List.cons_append, spansAll, ih, List.append_assoc]

/-- All spans of some nodes lie between two offsets. -/
def Between (start stop : Nat) (trees : List Tree) : Prop :=
  ∀ s ∈ spansAll trees, start ≤ s.start ∧ s.stop ≤ stop

theorem Between.append
    {start stop : Nat} {front back : List Tree}
    (hfront : Between start stop front)
    (hback : Between start stop back) :
    Between start stop (front ++ back) := by
  intro s hs
  rw [spansAll_append, List.mem_append] at hs
  exact hs.elim (hfront s) (hback s)

theorem Between.mono
    {start stop stop' : Nat} {trees : List Tree}
    (h : Between start stop trees)
    (hstop : stop ≤ stop') :
    Between start stop' trees :=
  fun s hs => ⟨(h s hs).1, Nat.le_trans (h s hs).2 hstop⟩

/-- An element lies where it starts and stops, if its children do. -/
theorem Between.close
    {start stop : Nat} {e : Open}
    (hstart : start ≤ e.span.start)
    (h : Between e.span.start stop e.children) :
    Between start stop [e.close stop] := by
  intro s hs
  simp only [spansAll, spans, Open.close, List.append_nil, List.mem_cons] at hs
  rcases hs with rfl | hs
  · exact ⟨hstart, Nat.le_refl stop⟩
  · exact ⟨Nat.le_trans hstart (h s hs).1, (h s hs).2⟩

/-- An open element whose tag and children stand before an offset. -/
structure Open.Before (offset : Nat) (e : Open) : Prop where
  start : e.span.start ≤ offset
  children : Between e.span.start offset e.children
  nested : ∀ t ∈ e.children, t.Nested

theorem Open.Before.mono
    {offset offset' : Nat} {e : Open}
    (he : e.Before offset)
    (h : offset ≤ offset') :
    e.Before offset' where
  start := Nat.le_trans he.start h
  children := he.children.mono h
  nested := he.nested

theorem Open.Before.append
    {offset : Nat} {e : Open} {t : Tree}
    (he : e.Before offset)
    (ht : t.Nested)
    (hspans : Between e.span.start offset [t]) :
    Open.Before offset { e with children := e.children ++ [t] } where
  start := he.start
  children := he.children.append hspans
  nested := List.forall_mem_append.2 ⟨he.nested, List.forall_mem_singleton.2 ht⟩

/-- An element that is closed no sooner than its children end encloses them. -/
theorem Open.Before.close
    {offset : Nat} {e : Open}
    (he : e.Before offset) :
    (e.close offset).Nested :=
  .element he.children he.nested

namespace Builder

/-- A forest under construction that ends before an offset: its closed elements enclose their
descendants, and no open element starts before the one around it. -/
structure Before (offset : Nat) (b : Builder) : Prop where
  stack : ∀ e ∈ b.stack, e.Before offset
  sorted : b.stack.Pairwise fun inner outer => outer.span.start ≤ inner.span.start
  roots : ∀ t ∈ b.roots, t.Nested

theorem Before.mono
    {offset offset' : Nat} {b : Builder}
    (hb : b.Before offset)
    (h : offset ≤ offset') :
    b.Before offset' where
  stack := fun e he => (hb.stack e he).mono h
  sorted := hb.sorted
  roots := hb.roots

/-- A node is attached behind what is there. -/
theorem Before.attach
    {offset start : Nat} {b : Builder} {t : Tree}
    (hb : b.Before offset)
    (ht : t.Nested)
    (hspans : Between start offset [t])
    (hstart : ∀ e ∈ b.stack, e.span.start ≤ start) :
    (b.attach t).Before offset := by
  obtain ⟨stack, roots⟩ := b
  cases stack with
  | nil =>
      exact ⟨hb.stack, hb.sorted, List.forall_mem_append.2
        ⟨hb.roots, List.forall_mem_singleton.2 ht⟩⟩
  | cons e outer =>
      obtain ⟨he, houter⟩ := List.forall_mem_cons.1 hb.stack
      have hfrom : Between e.span.start offset [t] :=
        fun s hs => ⟨Nat.le_trans (hstart e List.mem_cons_self) (hspans s hs).1, (hspans s hs).2⟩
      refine ⟨List.forall_mem_cons.2 ⟨he.append ht hfrom, houter⟩, ?_, hb.roots⟩
      exact List.pairwise_cons.2 (List.pairwise_cons.1 hb.sorted)

theorem Before.close
    {offset : Nat} {b : Builder}
    (hb : b.Before offset) :
    (b.close offset).Before offset := by
  obtain ⟨stack, roots⟩ := b
  cases stack with
  | nil =>
      exact hb
  | cons e outer =>
      obtain ⟨he, houter⟩ := List.forall_mem_cons.1 hb.stack
      obtain ⟨hstarts, hsorted⟩ := List.pairwise_cons.1 hb.sorted
      have hrest : Before offset ⟨outer, roots⟩ := ⟨houter, hsorted, hb.roots⟩
      exact hrest.attach he.close (Between.close (Nat.le_refl _) he.children) hstarts

/-- One event that begins behind what is there. -/
theorem Before.take
    {r : Reading} {offset : Nat} {b : Builder} {e : Markup.Event} {move : Segmented}
    (hb : b.Before offset)
    (hmove : Segmented.read r e = .ok move)
    (hstart : offset ≤ e.span.start)
    (hstop : e.span.start ≤ e.span.stop) :
    (b.take move).Before e.span.stop := by
  have hlater := hb.mono (Nat.le_trans hstart hstop)
  cases e with
  | openTag name attributes span =>
      simp only [Segmented.read, bind_eq_ok_iff, pure_eq_ok_iff] at hmove
      obtain ⟨fs, -, read, -, rfl⟩ := hmove
      have hopen : Open.Before span.stop ⟨span, fs, read, []⟩ :=
        ⟨hstop, fun s hs => absurd hs List.not_mem_nil, fun t ht => absurd ht List.not_mem_nil⟩
      refine ⟨List.forall_mem_cons.2 ⟨hopen, hlater.stack⟩, ?_, hlater.roots⟩
      exact List.pairwise_cons.2
        ⟨fun outer houter => Nat.le_trans (hb.stack outer houter).start hstart, hb.sorted⟩
  | text raw span =>
      simp only [Segmented.read, bind_eq_ok_iff, pure_eq_ok_iff] at hmove
      obtain ⟨fs, -, rfl⟩ := hmove
      simp only [Builder.take]
      split
      · exact hlater
      · have hspans : Between span.start span.stop [Tree.text span fs] := by
          intro s hs
          obtain rfl := List.mem_singleton.1 hs
          exact ⟨Nat.le_refl _, Nat.le_refl _⟩
        exact hlater.attach .text hspans
          fun outer houter => Nat.le_trans (hb.stack outer houter).start hstart
  | closeTag span =>
      cases hmove
      exact hlater.close

theorem length_stack_take
    {r : Reading} {e : Markup.Event} {move : Segmented}
    (hmove : Segmented.read r e = .ok move)
    (b : Builder) (rest : List Markup.Event) :
    Markup.leftOpen (b.take move).stack.length rest =
      Markup.leftOpen b.stack.length (e :: rest) := by
  have hattach : ∀ (t : Tree) (b : Builder), (b.attach t).stack.length = b.stack.length := by
    rintro t ⟨stack, roots⟩
    cases stack <;> rfl
  cases e with
  | openTag name attributes span =>
      simp only [Segmented.read, bind_eq_ok_iff, pure_eq_ok_iff] at hmove
      obtain ⟨fs, -, read, -, rfl⟩ := hmove
      rfl
  | text raw span =>
      simp only [Segmented.read, bind_eq_ok_iff, pure_eq_ok_iff] at hmove
      obtain ⟨fs, -, rfl⟩ := hmove
      simp only [take, Markup.leftOpen]
      split
      · rfl
      · rw [hattach]
  | closeTag span =>
      cases hmove
      obtain ⟨stack, roots⟩ := b
      cases stack with
      | nil =>
          rfl
      | cons e outer =>
          simp only [take, close, hattach, Markup.leftOpen, List.length_cons, Nat.add_sub_cancel]

/-- The run of all events, from any forest under construction. -/
theorem Before.foldl_take
    {r : Reading} {events : List Markup.Event} {moves : List Segmented} {offset : Nat}
    {b : Builder}
    (hb : b.Before offset)
    (hmoves : events.mapM (Segmented.read r) = .ok moves)
    (hevents : Markup.InOrder offset events) :
    (∃ last, (moves.foldl Builder.take b).Before last) ∧
      (moves.foldl Builder.take b).stack.length = Markup.leftOpen b.stack.length events := by
  induction events generalizing moves offset b with
  | nil =>
      cases hmoves
      exact ⟨⟨offset, hb⟩, rfl⟩
  | cons e rest ih =>
      simp only [List.mapM_cons, bind_eq_ok_iff, pure_eq_ok_iff] at hmoves
      obtain ⟨move, hmove, more, hmore, rfl⟩ := hmoves
      obtain ⟨hstart, hstop, hrest⟩ := hevents
      rw [List.foldl_cons, ← length_stack_take hmove b rest]
      exact ih (hb.take hmove hstart hstop) hmore hrest

/-- The innermost open element may hold elements that were left open; with the open elements around
it there are so many more. -/
theorem nestedUpTo_finish_cons
    {offset opened : Nat} {roots : List Tree} {outer : List Open}
    (hroots : ∀ t ∈ roots, t.Nested)
    (houter : ∀ e ∈ outer, e.Before offset)
    {e : Open}
    (he : NestedUpTo opened e.children) :
    NestedUpTo (opened + outer.length + 1) (finish roots (e :: outer)) := by
  induction outer generalizing e opened with
  | nil =>
      rw [finish]
      exact .last hroots he
  | cons next outer ih =>
      obtain ⟨hnext, hrest⟩ := List.forall_mem_cons.1 houter
      have hlast : NestedUpTo (opened + 1) (next.children ++ [e.close e.span.stop]) :=
        .last hnext.nested he
      have hcount : opened + (outer.length + 1) + 1 = opened + 1 + outer.length + 1 := by omega
      rw [finish, List.length_cons, hcount]
      exact ih hrest hlast

theorem nestedUpTo_finish
    {offset : Nat} {b : Builder}
    (hb : b.Before offset) :
    NestedUpTo b.stack.length (finish b.roots b.stack) := by
  obtain ⟨stack, roots⟩ := b
  cases stack with
  | nil =>
      rw [finish]
      exact .none hb.roots
  | cons e outer =>
      obtain ⟨he, houter⟩ := List.forall_mem_cons.1 hb.stack
      have hfinish := nestedUpTo_finish_cons hb.roots houter (.none he.nested)
      rw [Nat.zero_add] at hfinish
      exact hfinish

end Builder

/-- Events whose names, attributes and texts can be read describe a forest, which is written back out
as these events in balance.  When the events stand in order, every element that was closed encloses
all its descendants. -/
theorem ofEvents_written
    (r : Reading)
    (events : List Markup.Event)
    (moves : List Segmented)
    (h : events.mapM (Segmented.read r) = .ok moves) :
    ∃ trees, ofEvents r events = .ok trees ∧
      writtenAll trees = balanced [] moves ∧
      (Markup.InOrder 0 events → NestedUpTo (Markup.leftOpen 0 events) trees) := by
  have hsteps := Builder.foldlM_step h Builder.empty
  refine ⟨_, by rw [ofEvents, hsteps, ok_bind]; rfl, ?_, fun hevents => ?_⟩
  · exact Builder.written_foldl_take moves Builder.empty
  · have hempty : Builder.Before 0 Builder.empty :=
      ⟨fun e he => absurd he List.not_mem_nil, .nil, fun t ht => absurd ht List.not_mem_nil⟩
    obtain ⟨⟨last, hlast⟩, hlength⟩ := hempty.foldl_take h hevents
    have hfinish := Builder.nestedUpTo_finish hlast
    rw [hlength] at hfinish
    exact hfinish

/-- The events of `</p><b id="x">t{{y}}</b> <i>u<u>`: a tag that closes nothing, an element, blank
text, and two elements that are left open. -/
def untidyEvents : List Markup.Event :=
  [.closeTag ⟨0, 4⟩, .openTag (utf8 "b") [⟨utf8 "id", utf8 "x"⟩] ⟨4, 14⟩,
   .text (utf8 "t\x7b\x7by\x7d\x7d") ⟨14, 20⟩, .closeTag ⟨20, 24⟩, .text (utf8 " ") ⟨24, 25⟩,
   .openTag (utf8 "i") [] ⟨25, 28⟩, .text (utf8 "u") ⟨28, 29⟩, .openTag (utf8 "u") [] ⟨29, 32⟩]

/-- The same events with their names, attributes and texts read. -/
def untidyMoves : List Segmented :=
  [.closes ⟨0, 4⟩, .opens ⟨4, 14⟩ [⟨⟨4, 14⟩, .literal (utf8 "b")⟩]
     [(utf8 "id", [⟨⟨4, 14⟩, .literal (utf8 "x")⟩])],
   .text ⟨14, 20⟩ [⟨⟨14, 15⟩, .literal (utf8 "t")⟩, ⟨⟨15, 20⟩, .interpolation (.dotted [utf8 "y"])⟩],
   .closes ⟨20, 24⟩, .text ⟨24, 25⟩ [], .opens ⟨25, 28⟩ [⟨⟨25, 28⟩, .literal (utf8 "i")⟩] [],
   .text ⟨28, 29⟩ [⟨⟨28, 29⟩, .literal (utf8 "u")⟩],
   .opens ⟨29, 32⟩ [⟨⟨29, 32⟩, .literal (utf8 "u")⟩] []]

/-- The stray closing tag and the blank text are gone, and two closings stand at the end. -/
theorem ofEvents_written_untidy :
    untidyEvents.mapM (Segmented.read ⟨fun _ => false, false⟩) = .ok untidyMoves ∧
      ∃ trees, ofEvents ⟨fun _ => false, false⟩ untidyEvents = .ok trees ∧
        writtenAll trees =
          [.opens 4 [⟨⟨4, 14⟩, .literal (utf8 "b")⟩]
             [(utf8 "id", [⟨⟨4, 14⟩, .literal (utf8 "x")⟩])],
           .text ⟨14, 20⟩ [⟨⟨14, 15⟩, .literal (utf8 "t")⟩,
             ⟨⟨15, 20⟩, .interpolation (.dotted [utf8 "y"])⟩],
           .closes 24, .opens 25 [⟨⟨25, 28⟩, .literal (utf8 "i")⟩] [],
           .text ⟨28, 29⟩ [⟨⟨28, 29⟩, .literal (utf8 "u")⟩],
           .opens 29 [⟨⟨29, 32⟩, .literal (utf8 "u")⟩] [], .closes 32, .closes 28] ∧
        NestedUpTo 2 trees := by
  have h : untidyEvents.mapM (Segmented.read ⟨fun _ => false, false⟩) = .ok untidyMoves :=
    eq_ok_of_toOption_eq_some (by decide +kernel)
  obtain ⟨trees, htrees, hwritten, hnested⟩ := ofEvents_written _ _ _ h
  refine ⟨h, trees, htrees, hwritten.trans rfl, hnested ?_⟩
  simp [untidyEvents, Markup.InOrder, Markup.Event.span]

end Tree
end Stencil
