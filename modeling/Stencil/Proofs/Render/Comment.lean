import Stencil.Proofs.Engine.Whitespace
import Stencil.Proofs.Render.Bytewise
import Stencil.Proofs.Render.Content
import Stencil.Proofs.Render.Nesting
import Stencil.Proofs.Tree.Comment

/-!
# Compacted texts and comments

What is left of a text in the default mode, told from the chunks of the text.  Of the blank literals
at an end one is dropped, so an end is clean when at most one of them stands there.  Without comments
this is always so, because literal runs are not next to each other.  White space and comments leave
nothing behind when all white space is line breaks and tabs, or when no comment is there and the text
is skipped as a whole.

A comment next to white space can be left out, and the template writes the same, unless a blank
literal at an end of the text is disturbed.

Result: `compacted_texts_and_comments`.
-/

namespace Stencil

/-- A text that is read is cut into chunks up to its end. -/
theorem Tree.Builder.tiles_of_readText
    {r : Reading} {raw : Bytes} {span : Span} {attached : List Fragment}
    (h : readText r raw span = .ok attached) :
    Tiles raw (scan raw).chunks [] := by
  obtain ⟨left, hscan, ⟨-, rfl⟩ | ⟨hopen, hunclosed⟩⟩ := tiles_scan raw
  · exact hscan
  · unfold readText at h
    split at h
    · next hskip =>
        -- An expression without an end begins with a brace, which is not blank.
        have hblank : Text.isBlank raw = true := by
          simp only [Bool.and_eq_true] at hskip
          exact hskip.2
        obtain ⟨rest, rfl⟩ := Bytes.startsWith_iff.1 hunclosed.1
        have hbrace : Ascii.lbrace ∈ raw := by
          rw [hscan.eq_append]
          exact List.mem_append_right _ List.mem_cons_self
        exact absurd (Text.isBlank_of_mem hblank hbrace (by decide)) (by decide)
    · obtain ⟨fs, hfs, -⟩ := bind_eq_ok_iff.1 h
      rw [(Fragment.ofChunks_eq_ok_iff.1 hfs).1] at hopen
      cases hopen

/-- Without comments at most one blank literal stands at either end. -/
theorem Chunk.blanksAhead_ends_le_one
    {raw : Bytes} {chunks : List Chunk}
    (htiles : Tiles raw chunks [])
    (hcomments : ∀ c ∈ chunks, c.isComment = false) :
    blanksAhead chunks ≤ 1 ∧ blanksAhead chunks.reverse ≤ 1 := by
  have hchain := isChain_of_tiles htiles
  refine ⟨blanksAhead_le_one hchain hcomments, blanksAhead_le_one ?_ fun c hc =>
    hcomments c (List.mem_reverse.1 hc)⟩
  exact List.isChain_reverse.2 (hchain.imp fun _ _ => Or.symm)

/-! ## What a template writes -/

/-- What a template, given by its events, writes for data; nothing when the template is refused. -/
def writtenBy (r : Reading) (names : Names) (reg : Registry) (bound fuel : Nat)
    (events : List Markup.Event) (data : Value) : Option (Except RenderError (Option Bytes)) :=
  (Tree.ofEvents r events >>= Compile.forest names).toOption.map fun ops =>
    (render reg bound fuel ops data).map Node.html

/-- Templates whose events are read alike write the same. -/
theorem writtenBy_eq_of_alike
    {r : Reading} {events events' : List Markup.Event}
    (h : List.Forall₂ (Tree.Builder.Alike r) events events')
    {reg : Registry}
    (hreg : reg.Steady)
    (names : Names) (bound fuel : Nat) (data : Value) :
    writtenBy r names reg bound fuel events data =
      writtenBy r names reg bound fuel events' data := by
  have hops : (Tree.ofEvents r events >>= Compile.forest names).toOption.map Op.bytewiseAll =
      (Tree.ofEvents r events' >>= Compile.forest names).toOption.map Op.bytewiseAll :=
    toOption_bind_congr (Tree.ofEvents_bytewise h) fun _ _ => Compile.forest_bytewise names
  unfold writtenBy
  cases hleft : (Tree.ofEvents r events >>= Compile.forest names).toOption with
  | none =>
      rw [hleft, Option.map_none, eq_comm, Option.map_eq_none_iff] at hops
      rw [hops]
  | some ops =>
      rw [hleft, Option.map_some, eq_comm, Option.map_eq_some_iff] at hops
      obtain ⟨ops', hright, hsame⟩ := hops
      rw [hright]
      exact congrArg some (render_html_of_bytewise_eq hreg hsame.symm bound fuel data)

/-- A text exchanged for one that is spelled alike; what follows it may stand elsewhere. -/
theorem writtenBy_exchange
    {r : Reading} {raw raw' : Bytes} {span span' : Span} {attached attached' : List Fragment}
    (hread : Tree.Builder.readText r raw span = .ok attached)
    (hread' : Tree.Builder.readText r raw' span' = .ok attached')
    (hspelled : Fragment.bytewise attached = Fragment.bytewise attached')
    {reg : Registry}
    (hreg : reg.Steady)
    (before : List Markup.Event) {after after' : List Markup.Event}
    (hafter : after.map Markup.Event.unplaced = after'.map Markup.Event.unplaced)
    (names : Names) (bound fuel : Nat) (data : Value) :
    writtenBy r names reg bound fuel (before ++ .text raw span :: after) data =
      writtenBy r names reg bound fuel (before ++ .text raw' span' :: after') data := by
  refine writtenBy_eq_of_alike ?_ hreg names bound fuel data
  have hsame : ∀ e : Markup.Event, Tree.Builder.Alike r e e :=
    fun e => Tree.Builder.alike_of_unplaced rfl
  have htext : Tree.Builder.Alike r (.text raw span) (.text raw' span') := by
    refine Tree.Builder.alike_text ?_
    rw [hread, hread']
    exact congrArg some hspelled
  have hrest : List.Forall₂ (Tree.Builder.Alike r) after after' := by
    rw [← List.forall₂_eq_eq_eq, List.forall₂_map_left_iff, List.forall₂_map_right_iff] at hafter
    exact hafter.imp fun _ _ => Tree.Builder.alike_of_unplaced
  exact List.rel_append (List.forall₂_same.2 fun e _ => hsame e) (.cons htext hrest)

/-! ## Ends and comments -/

/-- The law of compacted texts.  A text with something else than literals has a blank literal at an
end exactly when two or more blank literal runs stand there, comments apart, and never when there
are no comments.  White space and comments leave nothing exactly when there is no comment, or no
white space but line breaks and tabs.  A text without a comment that stands next to white space is
read as well; it is spelled as with the comment exactly when joining the runs around the comment
disturbs no blank literal at an end, and then every template with it writes the same. -/
theorem compacted_texts_and_comments
    {r : Reading}
    (hr : r.keepWhitespace = false)
    {raw : Bytes} {span : Span} {attached : List Fragment}
    (hread : Tree.Builder.readText r raw span = .ok attached) :
    ((∃ f ∈ attached, f.mark.isLiteral = false) →
      (attached.head?.any Whitespace.isBlank = true ↔ 2 ≤ Chunk.blanksAhead (scan raw).chunks) ∧
      (attached.getLast?.any Whitespace.isBlank = true ↔
        2 ≤ Chunk.blanksAhead (scan raw).chunks.reverse) ∧
      ((∀ c ∈ (scan raw).chunks, c.isComment = false) →
        attached.head?.any Whitespace.isBlank = false ∧
          attached.getLast?.any Whitespace.isBlank = false)) ∧
    ((∀ c ∈ (scan raw).chunks, c.isPadding = true) →
      (attached = [] ↔ (∀ c ∈ (scan raw).chunks, c.isComment = false) ∨
        ∀ c ∈ (scan raw).chunks, c.isDropped = true)) ∧
    ∀ front s c t back, (scan raw).chunks = front ++ (Chunk.run s ++ (c :: (Chunk.run t ++ back))) →
      Chunk.Beside front s c t back →
      ∀ raw', raw' = front.flatMap Chunk.source ++ (s ++ t ++ back.flatMap Chunk.source) →
        ∀ span', ∃ attached', Tree.Builder.readText r raw' span' = .ok attached' ∧
          ((∃ f ∈ attached, f.mark.isLiteral = false) →
            (Fragment.bytewise attached = Fragment.bytewise attached' ↔
              Chunk.Undisturbed front s t back)) ∧
          (Chunk.Undisturbed front s t back → Text.isBlank raw' = false →
            ∀ (reg : Registry), reg.Steady → ∀ before after after' : List Markup.Event,
              after.map Markup.Event.unplaced = after'.map Markup.Event.unplaced →
              ∀ names bound fuel data,
                writtenBy r names reg bound fuel (before ++ .text raw span :: after) data =
                  writtenBy r names reg bound fuel (before ++ .text raw' span' :: after') data) := by
  have htiles := Tree.Builder.tiles_of_readText hread
  refine ⟨fun ⟨f, hf, hmark⟩ => ?_, Tree.Builder.eq_nil_iff_of_isPadding hr hread htiles, ?_⟩
  · obtain ⟨hhead, hlast⟩ := Tree.Builder.isBlank_ends_iff hr hread htiles
      ⟨f, hf, Whitespace.isBlank_eq_false hmark⟩
    refine ⟨hhead, hlast, fun hcomments => ?_⟩
    obtain ⟨hfront, hback⟩ := Chunk.blanksAhead_ends_le_one htiles hcomments
    rw [← Bool.not_eq_true, ← Bool.not_eq_true, hhead, hlast]
    omega
  · intro front s c t back hchunks hbeside raw' hraw' span'
    rw [hchunks] at htiles
    subst hraw'
    obtain ⟨attached', hread', hsame, hiff⟩ :=
      Tree.Builder.exists_readText_without hr hread htiles hbeside span'
    refine ⟨attached', hread', hiff, fun hundisturbed hblank reg hreg before after after' hafter => ?_⟩
    exact writtenBy_exchange hread hread' (hsame hblank hundisturbed) hreg before hafter

/-- A comment between two blanks, behind a letter. -/
def remarkSample : Bytes := utf8 "a \x7b\x7b!c\x7d\x7d \x7b\x7bx\x7d\x7d"

/-- The comment of the sample can be left out. -/
theorem compacted_texts_of_remarkSample :
    let x := PathExpr.dotted [utf8 "x"]
    let attached : List Fragment :=
      [⟨⟨0, 2⟩, .literal (utf8 "a ")⟩, ⟨⟨8, 9⟩, .literal (utf8 " ")⟩, ⟨⟨9, 14⟩, .interpolation x⟩]
    let written := fun (raw : Bytes) (span : Span) =>
      writtenBy plainReading .any .plain 64 0 [.text raw span] (.record [(utf8 "x", .int 1)] [])
    Tree.Builder.readText plainReading remarkSample ⟨0, 14⟩ = .ok attached ∧
      attached.head?.any Whitespace.isBlank = false ∧
      written remarkSample ⟨0, 14⟩ = written (utf8 "a  \x7b\x7bx\x7d\x7d") ⟨0, 8⟩ ∧
      written remarkSample ⟨0, 14⟩ = some (.ok (some (utf8 "a  1"))) := by
  intro x attached written
  have hread : Tree.Builder.readText plainReading remarkSample ⟨0, 14⟩ = .ok attached := by
    decide +kernel
  have hsteady : Registry.plain.Steady := fun _ _ => Helper.steady_builtins
  obtain ⟨hends, -, hcomments⟩ := compacted_texts_and_comments rfl hread
  have hbeside : Chunk.Beside [] (utf8 "a ") (.expression .plain (utf8 "!c")) (utf8 " ")
      [.expression .plain (utf8 "x")] :=
    ⟨by decide +kernel, .inr ⟨Ascii.blank, [], by decide +kernel, by decide⟩,
      (fun _ h => nomatch h), (fun _ h => nomatch h)⟩
  obtain ⟨_, -, -, hwritten⟩ := hcomments [] (utf8 "a ") (.expression .plain (utf8 "!c")) (utf8 " ")
    [.expression .plain (utf8 "x")] (by decide +kernel) hbeside
    (utf8 "a  \x7b\x7bx\x7d\x7d") (by decide +kernel) ⟨0, 8⟩
  refine ⟨hread, ?_, hwritten (by decide +kernel) (by decide +kernel) .plain hsteady [] [] []
    rfl .any 64 0 _, by decide +kernel⟩
  have hhead := (hends ⟨⟨⟨9, 14⟩, .interpolation x⟩, by decide +kernel, rfl⟩).1
  rw [← Bool.not_eq_true, hhead]
  decide +kernel

/-- A comment behind a blank at the front of a text. -/
def leadingSample : Bytes := utf8 " \x7b\x7b!a\x7d\x7d \x7b\x7bx\x7d\x7d"

/-- A comment leaves a blank at the front that is not there without the comment, in the text and in
what is written.  Blanks around a comment leave a node. -/
theorem comment_leaves_blank_in_leadingSample :
    let x := PathExpr.dotted [utf8 "x"]
    let written := fun (raw : Bytes) => Engine.written
      ((Engine.fresh 64 false).prepare [] Engine.unnamed (utf8 "<p>" ++ raw ++ utf8 "</p>"))
      (.map [(utf8 "x", .text (utf8 "1"))])
    Tree.Builder.readText plainReading leadingSample ⟨0, 13⟩ =
        .ok [⟨⟨7, 8⟩, .literal (utf8 " ")⟩, ⟨⟨8, 13⟩, .interpolation x⟩] ∧
      Tree.Builder.readText plainReading (utf8 "  \x7b\x7bx\x7d\x7d") ⟨0, 7⟩ =
        .ok [⟨⟨2, 7⟩, .interpolation x⟩] ∧
      written leadingSample = some (utf8 "<p> 1</p>") ∧
      written (utf8 "  \x7b\x7bx\x7d\x7d") = some (utf8 "<p>1</p>") ∧
      Tree.Builder.readText plainReading (utf8 " \x7b\x7b!a\x7d\x7d ") ⟨0, 8⟩ =
        .ok [⟨⟨7, 8⟩, .literal (utf8 " ")⟩] := by
  decide +kernel

end Stencil
