import Stencil.Proofs.Markup.Tiling
import Stencil.Proofs.Offset.Fragment
import Stencil.Tree

/-!
# Trees by offsets

The tokens of a source have spans, and the texts and the names that keep their case are cut out of
the source at these spans.  The fragments of texts and attribute values are read by offsets.

Result: `readTree_eq`.  The spans are in range since the tokens are cut from the source one after
the other, and the name of a start tag stands right behind its angle bracket.
-/

namespace Stencil
namespace Offset

open Markup

/-! ## Events -/

/-- The name of a tag, in lower case unless it holds an expression.  In that case it is cut out of
the source, behind the angle bracket. -/
def tagNameAt (source : Bytes) (start : Nat) (name : Bytes) : Option Bytes :=
  if Bytes.occurs opener (name.map Ascii.toLower) then
    slice? source (start + 1) (start + 1 + (name.map Ascii.toLower).length)
  else some (name.map Ascii.toLower)

/-- The events of a token with a given span. -/
def tokenEvents (source : Bytes) (span : Span) : Token → Option (List Event)
  | .text => do
    return [.text (← slice? source span.start span.stop) span]
  | .startTag name attributes selfClosing => do
    let opened := .openTag (← tagNameAt source span.start name)
      (attributes.map Attribute.meaning) span
    if selfClosing || voidNames.contains (name.map Ascii.toLower) then
      return [opened, .closeTag (Span.point span.stop)]
    else return [opened]
  | .endTag => some [.closeTag span]
  | .skipped => some []

/-- The events of tokens that begin at an offset. -/
def eventsFrom (source : Bytes) (offset : Nat) : List (Token × Bytes) → Option (List Event)
  | [] => some []
  | (t, raw) :: rest => do
    let events ← tokenEvents source ⟨offset, offset + raw.length⟩ t
    return events ++ (← eventsFrom source (offset + raw.length) rest)

theorem toLower_eq_lbrace_iff
    {b : UInt8} :
    Ascii.toLower b = Ascii.lbrace ↔ b = Ascii.lbrace := by
  unfold Ascii.toLower
  split
  · next h =>
      simp only [UInt8.le_iff_toNat_le, ← UInt8.toNat_inj, UInt8.toNat_add] at h ⊢
      have hlower : (0x5a : UInt8).toNat = 0x5a := rfl
      have hupper : (0x41 : UInt8).toNat = 0x41 := rfl
      have hshift : (0x20 : UInt8).toNat = 0x20 := rfl
      have hbrace : Ascii.lbrace.toNat = 0x7b := rfl
      omega
  · exact Iff.rfl

theorem occurs_map_toLower
    (s : Bytes) :
    Bytes.occurs opener (s.map Ascii.toLower) = Bytes.occurs opener s := by
  induction s with
  | nil =>
      rfl
  | cons b s ih =>
      have hstart : Bytes.startsWith opener (Ascii.toLower b :: s.map Ascii.toLower) =
          Bytes.startsWith opener (b :: s) := by
        rw [Bool.eq_iff_iff, Bytes.startsWith_opener, Bytes.startsWith_opener,
          toLower_eq_lbrace_iff]
        cases s with
        | nil =>
            exact Iff.rfl
        | cons c s =>
            simp only [List.map_cons, List.head?_cons, Option.some.injEq, toLower_eq_lbrace_iff]
      rw [List.map_cons, Bytes.occurs_cons, Bytes.occurs_cons, hstart, ih]

theorem tagNameAt_eq
    (front name rest : Bytes) :
    tagNameAt (front ++ Ascii.less :: (name ++ rest)) front.length name = some (tagName name) := by
  unfold tagNameAt tagName
  rw [occurs_map_toLower, List.length_map]
  split
  · have h := slice?_append (front ++ [Ascii.less]) name rest rfl rfl
    simpa using h
  · rfl

theorem tokenEvents_eq
    {t : Token} {raw : Bytes}
    (hraw : t.Written raw)
    (front rest : Bytes) :
    tokenEvents (front ++ (raw ++ rest)) ⟨front.length, front.length + raw.length⟩ t =
      some (t.events raw front.length) := by
  cases t with
  | text =>
      have htext : slice? (front ++ (raw ++ rest)) front.length (front.length + raw.length : Nat) =
          some raw :=
        slice?_append front raw rest rfl (Int.natCast_add _ _)
      rw [tokenEvents, htext]
      rfl
  | startTag name attributes selfClosing =>
      obtain ⟨more, rfl⟩ := hraw
      have hname : tagNameAt (front ++ (Ascii.less :: (name ++ more) ++ rest)) front.length name =
          some (tagName name) := by
        have h := tagNameAt_eq front name (more ++ rest)
        simpa using h
      rw [tokenEvents, hname]
      simp only [Option.bind_eq_bind, Option.bind_some, Token.events]
      split <;> rfl
  | endTag =>
      rfl
  | skipped =>
      rfl

theorem eventsFrom_eq
    {tokens : List (Token × Bytes)}
    (htokens : ∀ p ∈ tokens, p.1.Written p.2)
    (front rest : Bytes) :
    eventsFrom (front ++ (tokens.flatMap Prod.snd ++ rest)) front.length tokens =
      some (Markup.eventsFrom front.length tokens) := by
  induction tokens generalizing front with
  | nil =>
      rfl
  | cons token more ih =>
      obtain ⟨t, raw⟩ := token
      obtain ⟨hraw, hmore⟩ := List.forall_mem_cons.1 htokens
      have hfirst := tokenEvents_eq hraw front (more.flatMap Prod.snd ++ rest)
      have hrest := ih hmore (front ++ raw)
      rw [List.append_assoc, List.length_append] at hrest
      rw [eventsFrom, List.flatMap_cons, List.append_assoc, hfirst, hrest]
      rfl

theorem events_eq
    (source : Bytes) :
    eventsFrom source 0 (tokens none source) = some (events source) := by
  obtain ⟨rest, hrest⟩ := tokens_append none source
  have h := eventsFrom_eq (tokens_written none source) [] rest
  rwa [List.nil_append, hrest] at h

/-! ## White space -/

/-- Fragments without a blank literal at the front, when there are more. -/
def dropFront (fs : List Fragment) : Option (List Fragment) :=
  if fs.length < 2 then some fs
  else do
    if Whitespace.isBlank (← at? fs 0) then from? fs 1 else some fs

/-- Fragments without a blank literal at the back, when there are more. -/
def dropBack (fs : List Fragment) : Option (List Fragment) :=
  if fs.length < 2 then some fs
  else do
    let last : Int := fs.length - 1
    if Whitespace.isBlank (← at? fs last) then slice? fs 0 last else some fs

/-- The fragments of a text stripped, and without blank literals at its ends. -/
def compact (fs : List Fragment) : Option (List Fragment) := do
  dropBack (← dropFront (Whitespace.stripAll fs))

theorem dropFront_eq
    (fs : List Fragment) :
    dropFront fs = some (Whitespace.dropFront fs) := by
  rcases fs with _ | ⟨f, _ | ⟨g, rest⟩⟩
  · rfl
  · rfl
  · have hlength : ¬ (f :: g :: rest).length < 2 := by
      simp
    unfold dropFront Whitespace.dropFront
    rw [if_neg hlength, at?_cons_zero, from?_cons_one]
    simp only [Option.bind_eq_bind, Option.bind_some]
    split <;> rfl

theorem dropBack_concat
    {front : List Fragment}
    (hfront : front ≠ [])
    (f : Fragment) :
    Whitespace.dropBack (front ++ [f]) = if Whitespace.isBlank f then front else front ++ [f] := by
  unfold Whitespace.dropBack
  rw [List.reverse_append, List.reverse_singleton, List.singleton_append]
  cases hreverse : front.reverse with
  | nil =>
      exact absurd (List.reverse_eq_nil_iff.1 hreverse) hfront
  | cons g rest =>
      have hback : (g :: rest).reverse = front := by
        rw [← hreverse, List.reverse_reverse]
      rw [Whitespace.dropFront]
      split
      · exact hback
      · rw [List.reverse_cons, hback]

theorem dropBack_eq
    (fs : List Fragment) :
    dropBack fs = some (Whitespace.dropBack fs) := by
  rcases List.eq_nil_or_concat fs with rfl | ⟨front, f, hfs⟩
  · rfl
  · rw [List.concat_eq_append] at hfs
    subst hfs
    cases front with
    | nil =>
        rfl
    | cons g rest =>
        have hlength : ¬ (g :: rest ++ [f]).length < 2 := by
          simp
        have hlast : at? (g :: rest ++ [f]) ((g :: rest ++ [f]).length - 1) = some f := by
          refine at?_append (g :: rest) [] f ?_
          simp
        have hfront : slice? (g :: rest ++ [f]) 0 ((g :: rest ++ [f]).length - 1) =
            some (g :: rest) := by
          refine slice?_append [] (g :: rest) [f] rfl ?_
          simp
        unfold dropBack
        rw [if_neg hlength, dropBack_concat (List.cons_ne_nil g rest)]
        simp only [hlast, hfront, Option.bind_eq_bind, Option.bind_some]
        split <;> rfl

theorem compact_eq
    (fs : List Fragment) :
    compact fs = some (Whitespace.compact fs) := by
  unfold compact
  rw [dropFront_eq, Option.bind_eq_bind, Option.bind_some, dropBack_eq]
  rfl

/-! ## Trees -/

section Tree

variable (r : Reading)

/-- The fragments of an attribute value. -/
def readAttribute (span : Span) (a : Attribute) : Checked Fault (Bytes × List Fragment) := do
  let value ← readFragments r.isHelper (.tag span) a.value
  return (a.key, if r.keepWhitespace then value else Whitespace.stripAll value)

/-- The fragments of a text; none when it is skipped. -/
def readText (raw : Bytes) (span : Span) : Checked Fault (List Fragment) :=
  if !r.keepWhitespace && Text.isBlank raw then pure []
  else do
    let fragments ← readFragments r.isHelper (.text span.start) raw
    if r.keepWhitespace then return fragments else compact fragments

/-- One event. -/
def step (b : Tree.Builder) : Event → Checked Fault Tree.Builder
  | .openTag name attributes span => do
    let name ← readFragments r.isHelper (.tag span) name
    let attributes ← attributes.mapM (readAttribute r span)
    return { b with stack := ⟨span, name, attributes, []⟩ :: b.stack }
  | .text raw span => do
    let fragments ← readText r raw span
    return if fragments.isEmpty then b else b.attach (.text span fragments)
  | .closeTag span => pure (b.close span.stop)

/-- The forest of a template source. -/
def readTree (source : Bytes) : Checked Fault (List Tree) := do
  let events ← eventsFrom source 0 (tokens none source)
  let b ← events.foldlM (step r) Tree.Builder.empty
  return Tree.Builder.finish b.roots b.stack

theorem readAttribute_eq
    (span : Span) (a : Attribute) :
    readAttribute r span a = .of (Tree.Builder.readAttribute r span a) := by
  unfold readAttribute Tree.Builder.readAttribute
  rw [readFragments_eq]
  exact Checked.of_bind fun value _ => rfl

theorem readText_eq
    (raw : Bytes) (span : Span) :
    readText r raw span = .of (Tree.Builder.readText r raw span) := by
  unfold readText Tree.Builder.readText
  split
  · rfl
  · rw [readFragments_eq]
    refine Checked.of_bind fun fragments _ => ?_
    split
    · rfl
    · rw [compact_eq]
      rfl

theorem step_eq
    (b : Tree.Builder) (e : Event) :
    step r b e = .of (Tree.Builder.step r b e) := by
  cases e with
  | openTag name attributes span =>
      have hattributes : attributes.mapM (readAttribute r span) =
          .of (attributes.mapM (Tree.Builder.readAttribute r span)) :=
        Checked.mapM_of fun a _ => readAttribute_eq r span a
      rw [step, Tree.Builder.step, readFragments_eq, hattributes]
      exact Checked.of_bind fun name _ => Checked.of_bind fun read _ => rfl
  | text raw span =>
      rw [step, Tree.Builder.step, readText_eq]
      exact Checked.of_bind fun fragments _ => rfl
  | closeTag span =>
      rfl

theorem readTree_eq
    (source : Bytes) :
    readTree r source = .of (Tree.read r source) := by
  have hsteps := Checked.foldlM_of (fun e (_ : e ∈ events source) b => step_eq r b e)
    Tree.Builder.empty
  unfold readTree Tree.read Tree.ofEvents
  rw [events_eq, Checked.lift_some, Checked.of_ok_bind, hsteps]
  exact Checked.of_bind fun b _ => rfl

end Tree

end Offset
end Stencil
