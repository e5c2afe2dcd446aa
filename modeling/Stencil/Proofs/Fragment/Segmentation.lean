import Stencil.Proofs.Chunk.Factorisation
import Stencil.Proofs.Compile.Placement
import Stencil.Proofs.Fragment.Expression

/-!
# Texts as fragments

The fragments of a text are those of its chunks, one after the other, each with the span of its
chunk: a literal for a literal run, nothing for a comment, three marks for the call of a helper
outside of a block, and a single mark for any other expression.

Result: `read_segmentation`, which also says when an expression is reported that has no end.
-/

namespace Stencil

/-! ## Expressions -/

namespace Mark

/-- Whether an expression is a comment. -/
def isComment : Form → (payload : Bytes) → Bool
  | .comment, _ => true
  | .triple, _ => false
  | .plain, payload => (Text.trim payload).head? == some Ascii.bang

/-- The helper that an expression calls outside of a block. -/
def called? (isHelper : Bytes → Bool) (form : Form) (payload : Bytes) : Option Bytes :=
  match form, Text.trim payload with
  | .plain, b :: rest =>
    if signs.contains b || b :: rest == utf8 "else" then none
    else match Argument.split (b :: rest) with
      | .ok (head :: _) => if isHelper head then some head else none
      | _ => none
  | _, _ => none

/-- What the call of a helper outside of a block stands for. -/
def call (name : Bytes) (arguments : List Argument) : List Mark :=
  [.opening name arguments true, .interpolation .this, .closing name]

variable {isHelper : Bytes → Bool} {form : Form} {payload : Bytes}

theorem ofExpression_of_isComment
    (h : isComment form payload = true) :
    ofExpression isHelper form payload = .ok [] := by
  cases form with
  | comment =>
      rfl
  | triple =>
      cases h
  | plain =>
      simp only [isComment, beq_iff_eq] at h
      simp only [ofExpression]
      cases hbody : Text.trim payload with
      | nil =>
          rw [hbody] at h
          cases h
      | cons b rest =>
          rw [hbody, List.head?_cons, Option.some.injEq] at h
          rw [ofPlain, if_pos h]

/-- Behind no sign a plain expression is a call or an interpolation. -/
theorem ofPlain_of_not_sign
    {b : UInt8} {rest : Bytes}
    (h : (signs.contains b || b :: rest == utf8 "else") = false) :
    ofPlain isHelper (b :: rest) = readBare isHelper (b :: rest) := by
  simp only [signs, Bool.or_eq_false_iff, List.contains_eq_mem, decide_eq_false_iff_not,
    List.mem_cons, List.not_mem_nil, or_false, not_or, beq_eq_false_iff_ne] at h
  obtain ⟨⟨hbang, hgreater, hslash, hhash, hampersand⟩, helse⟩ := h
  rw [ofPlain, if_neg hbang, if_neg hgreater, if_neg hslash, if_neg hhash, if_neg hampersand,
    if_neg helse]

/-- The parts of a call of a helper outside of a block. -/
theorem exists_of_called?
    {name : Bytes}
    (h : called? isHelper form payload = some name) :
    form = .plain ∧ ∃ b rest tokens, Text.trim payload = b :: rest ∧
      (signs.contains b || b :: rest == utf8 "else") = false ∧
      Argument.split (b :: rest) = .ok (name :: tokens) ∧ isHelper name = true := by
  unfold called? at h
  split at h
  · next b rest hbody =>
      split at h
      · cases h
      · next hsign =>
          split at h
          · next head tokens hsplit =>
              split at h
              · next hhelper =>
                  cases h
                  exact ⟨rfl, b, rest, tokens, hbody, Bool.eq_false_iff.2 hsign, hsplit, hhelper⟩
              · cases h
          · cases h
  · cases h

theorem ofExpression_of_called?
    {name : Bytes}
    (h : called? isHelper form payload = some name) :
    ofExpression isHelper form payload =
      (readCall (Text.trim payload)).map fun c => call name c.2 := by
  obtain ⟨rfl, b, rest, tokens, hbody, hsign, hsplit, hhelper⟩ := exists_of_called? h
  simp only [ofExpression, hbody]
  rw [ofPlain_of_not_sign hsign, readBare, hsplit]
  simp only [ofArguments, ok_mapError, ok_bind, hhelper, if_true]
  cases readCall (b :: rest) <;> rfl

/-- Marks that are a single one, and no literal. -/
def IsSingle (marks : List Mark) : Prop := ∃ mark, marks = [mark] ∧ mark.isLiteral = false

/-- An expression that is neither a comment nor a call has a single mark. -/
theorem isSingle_of_ofExpression
    {marks : List Mark}
    (hcomment : isComment form payload = false)
    (hcalled : called? isHelper form payload = none)
    (h : ofExpression isHelper form payload = .ok marks) :
    IsSingle marks := by
  cases reads_of_ofExpression h with
  | comment =>
      cases hcomment
  | remark body =>
      rw [isComment, body] at hcomment
      cases hcomment
  | inclusion _ read =>
      obtain ⟨name, context, parameters, rfl, -⟩ := exists_of_readPartial read
      exact ⟨_, rfl, rfl⟩
  | call body bare split helper _ =>
      simp only [called?, body, bare, split, helper, Bool.false_eq_true, if_false, if_true] at hcalled
      cases hcalled
  | closing | opening | triple | trusted | otherwise | path =>
      exact ⟨_, rfl, rfl⟩

/-! ## Expressions that have no end -/

/-- A result that is not the report of an expression without an end. -/
def Ends {α : Type} (x : Except Cause α) : Prop := ∀ opener, x ≠ .error (.unclosed opener)

section Ends

variable {α β : Type}

theorem ends_ok
    (a : α) :
    Ends (.ok a) :=
  fun _ h => nomatch h

theorem Ends.bind
    {x : Except Cause α} {f : α → Except Cause β}
    (hx : Ends x)
    (hf : ∀ a, Ends (f a)) :
    Ends (x >>= f) := by
  cases x with
  | ok a =>
      exact hf a
  | error cause =>
      exact fun opener h => hx opener (congrArg Except.error (Except.error.inj h))

theorem ends_ofArguments
    (x : Except ArgumentError α) :
    Ends (ofArguments x) := by
  intro opener h
  cases x <;> cases h

end Ends

theorem ends_readCall
    (text : Bytes) :
    Ends (readCall text) := by
  refine (ends_ofArguments _).bind fun tokens => ?_
  cases tokens with
  | nil =>
      exact fun _ h => nomatch h
  | cons name tokens =>
      simp only
      split
      · exact (ends_ofArguments _).bind fun _ => ends_ok _
      · exact fun _ h => nomatch h

theorem ends_readInclusion
    (name : Bytes) (context : Option PathExpr)
    (parameters : List (Bytes × Operand PathExpr Literal)) (tokens : List Bytes) :
    Ends (readInclusion name context parameters tokens) := by
  induction tokens generalizing context parameters with
  | nil =>
      exact ends_ok _
  | cons token tokens ih =>
      rw [readInclusion]
      refine (ends_ofArguments _).bind fun a => ?_
      obtain ⟨key, value⟩ := a
      cases key with
      | some key =>
          exact ih context _
      | none =>
          simp only
          split
          · exact fun _ h => nomatch h
          · cases value with
            | path p =>
                exact ih (some p) parameters
            | literal l =>
                exact fun _ h => nomatch h

theorem ends_readPartial
    (text : Bytes) :
    Ends (readPartial text) := by
  have hchecked : ∀ s, Ends (readPartialName.checked s) := by
    intro s
    unfold readPartialName.checked
    split
    · exact ends_ok _
    · exact fun _ h => nomatch h
  have hname : ∀ token, Ends (readPartialName token) := by
    intro token
    unfold readPartialName
    split
    · exact hchecked _
    · exact fun _ h => nomatch h
    · exact hchecked _
  refine (ends_ofArguments _).bind fun tokens => ?_
  cases tokens with
  | nil =>
      exact fun _ h => nomatch h
  | cons token tokens =>
      exact (hname token).bind fun name => ends_readInclusion name none [] tokens

theorem ends_readBare
    (isHelper : Bytes → Bool) (body : Bytes) :
    Ends (readBare isHelper body) := by
  refine (ends_ofArguments _).bind fun tokens => ?_
  cases tokens with
  | nil =>
      exact fun _ h => nomatch h
  | cons head tokens =>
      simp only
      split
      · exact (ends_readCall body).bind fun _ => ends_ok _
      · split
        · exact (ends_ofArguments _).bind fun _ => ends_ok _
        · split <;> exact fun _ h => nomatch h

theorem ends_ofPlain
    (isHelper : Bytes → Bool) (body : Bytes) :
    Ends (ofPlain isHelper body) := by
  unfold ofPlain
  split
  · exact fun _ h => nomatch h
  · split
    · exact ends_ok _
    · split
      · exact (ends_readPartial _).bind fun _ => ends_ok _
      · split
        · simp only
          split
          · exact ends_ok _
          · exact fun _ h => nomatch h
        · split
          · exact (ends_readCall _).bind fun _ => ends_ok _
          · split
            · exact (ends_ofArguments _).bind fun _ => ends_ok _
            · split
              · exact ends_ok _
              · exact ends_readBare _ _

/-- What an expression means is never that an expression has no end. -/
theorem ends_ofExpression
    (isHelper : Bytes → Bool) (form : Form) (payload : Bytes) :
    Ends (ofExpression isHelper form payload) := by
  cases form with
  | comment =>
      exact ends_ok _
  | triple =>
      exact (ends_ofArguments _).bind fun _ => ends_ok _
  | plain =>
      exact ends_ofPlain isHelper _

/-- A call names the helper that its first token is. -/
theorem eq_of_readCall
    {body name : Bytes} {tokens : List Bytes} {c : Bytes × List Argument}
    (hsplit : Argument.split body = .ok (name :: tokens))
    (h : readCall body = .ok c) :
    c.1 = name := by
  simp only [readCall, hsplit, ofArguments, ok_mapError, ok_bind] at h
  split at h
  · obtain ⟨arguments, -, hc⟩ := bind_eq_ok_iff.1 h
    cases hc
    rfl
  · cases h

end Mark

/-! ## Chunks and their fragments -/

/-- The range of a part of the text at a site: counted from where the text begins, or that of the
tag. -/
def Site.range : Site → (offset length : Nat) → Span
  | text start, offset, length => ⟨start + offset, start + offset + length⟩
  | tag span, _, _ => span

theorem Site.span_eq_range
    (site : Site) (offset length : Nat) :
    site.span offset (offset + length) = site.range offset length := by
  cases site with
  | text start =>
      simp only [span, range, Span.shift, Span.mk.injEq]
      omega
  | tag span =>
      rfl

/-- The fragments that a chunk with a given span stands for.  The character references of a literal
run are resolved in text, and stand as they are in a tag. -/
inductive Chunk.Yields (isHelper : Bytes → Bool) : Site → Span → Chunk → List Fragment → Prop
  | text {start : Nat} {span : Span} (s : Bytes) :
      Yields isHelper (.text start) span (.literal s) [⟨span, .literal (Entity.decode .text s)⟩]
  | tag {place span : Span} (s : Bytes) :
      Yields isHelper (.tag place) span (.literal s) [⟨span, .literal s⟩]
  | comment {site : Site} {span : Span} {form : Form} {payload : Bytes} :
      Mark.isComment form (site.payload payload) = true →
      Yields isHelper site span (.expression form payload) []
  | call {site : Site} {span : Span} {form : Form} {payload name : Bytes}
      {arguments : List Argument} :
      Mark.called? isHelper form (site.payload payload) = some name →
      Mark.readCall (Text.trim (site.payload payload)) = .ok (name, arguments) →
      Yields isHelper site span (.expression form payload)
        [⟨span, .opening name arguments true⟩, ⟨span, .interpolation .this⟩, ⟨span, .closing name⟩]
  | single {site : Site} {span : Span} {form : Form} {payload : Bytes} {mark : Mark} :
      Mark.isComment form (site.payload payload) = false →
      Mark.called? isHelper form (site.payload payload) = none →
      Mark.ofExpression isHelper form (site.payload payload) = .ok [mark] →
      mark.isLiteral = false →
      Yields isHelper site span (.expression form payload) [⟨span, mark⟩]

/-- The fragments of chunks one after the other, from an offset on, each with the range of its
chunk. -/
inductive Segments (isHelper : Bytes → Bool) (site : Site) :
    (offset : Nat) → List Chunk → List Fragment → Prop
  | nil {offset : Nat} : Segments isHelper site offset [] []
  | cons {offset : Nat} {c : Chunk} {chunks : List Chunk} {fs gs : List Fragment} :
      c.Yields isHelper site (site.range offset c.source.length) fs →
      Segments isHelper site (offset + c.source.length) chunks gs →
      Segments isHelper site offset (c :: chunks) (fs ++ gs)

theorem Tiles.eq_append
    {s rest : Bytes} {chunks : List Chunk}
    (h : Tiles s chunks rest) :
    s = chunks.flatMap Chunk.source ++ rest := by
  induction h with
  | nil =>
      rfl
  | cons _ _ ih =>
      rw [List.flatMap_cons, List.append_assoc, ← ih]

theorem Tiles.fits
    {s rest : Bytes} {chunks : List Chunk}
    (h : Tiles s chunks rest)
    {c : Chunk}
    (hc : c ∈ chunks) :
    ∃ more, c.Fits more := by
  induction h with
  | nil =>
      cases hc
  | cons hfits _ ih =>
      rcases List.mem_cons.1 hc with rfl | hc
      · exact ⟨_, hfits⟩
      · exact ih hc

namespace Fragment

variable {isHelper : Bytes → Bool} {site : Site}

theorem ofChunk_eq_ok_iff
    {offset : Nat} {c : Chunk} {fs : List Fragment} :
    ofChunk isHelper site offset c = .ok fs ↔
      c.Yields isHelper site (site.range offset c.source.length) fs := by
  unfold ofChunk
  rw [Site.span_eq_range]
  generalize site.range offset c.source.length = span
  constructor
  · intro h
    cases c with
    | literal s =>
        cases h
        cases site with
        | text start =>
            exact .text s
        | tag place =>
            exact .tag s
    | expression form payload =>
        simp only at h
        split at h
        · next marks hmarks =>
            cases h
            cases hcomment : Mark.isComment form (site.payload payload) with
            | true =>
                rw [Mark.ofExpression_of_isComment hcomment] at hmarks
                cases hmarks
                exact .comment hcomment
            | false =>
                cases hcalled : Mark.called? isHelper form (site.payload payload) with
                | some name =>
                    rw [Mark.ofExpression_of_called? hcalled] at hmarks
                    obtain ⟨⟨name', arguments⟩, hcall, rfl⟩ := map_eq_ok_iff.1 hmarks
                    obtain ⟨-, b, rest, tokens, hbody, -, hsplit, -⟩ :=
                      Mark.exists_of_called? hcalled
                    obtain rfl : name' = name := Mark.eq_of_readCall hsplit (hbody ▸ hcall)
                    exact .call hcalled hcall
                | none =>
                    obtain ⟨mark, rfl, hliteral⟩ :=
                      Mark.isSingle_of_ofExpression hcomment hcalled hmarks
                    exact .single hcomment hcalled hmarks hliteral
        · cases h
  · intro h
    cases h with
    | text s | tag s =>
        rfl
    | comment hcomment =>
        simp only [Mark.ofExpression_of_isComment hcomment, List.map_nil]
    | call hcalled hcall =>
        simp only [Mark.ofExpression_of_called? hcalled, hcall, Except.map, Mark.call,
          List.map_cons, List.map_nil]
    | single _ _ hmark _ =>
        simp only [hmark, List.map_cons, List.map_nil]

theorem ofChunk_ne_unclosed
    {offset : Nat} {c : Chunk} {fault : Fault}
    (h : ofChunk isHelper site offset c = .error fault)
    (opener : Bytes) :
    fault.cause ≠ .unclosed opener := by
  unfold ofChunk at h
  cases c with
  | literal s =>
      cases h
  | expression form payload =>
      simp only at h
      split at h
      · cases h
      · next cause hcause =>
          cases h
          intro hunclosed
          exact Mark.ends_ofExpression isHelper form (site.payload payload) opener
            (hunclosed ▸ hcause)

theorem ofChunks_eq_ok_iff
    {length offset : Nat} {unclosed : Option Form} {chunks : List Chunk} {fs : List Fragment} :
    ofChunks isHelper site length unclosed offset chunks = .ok fs ↔
      unclosed = none ∧ Segments isHelper site offset chunks fs := by
  induction chunks generalizing offset fs with
  | nil =>
      cases unclosed with
      | none =>
          constructor
          · rintro ⟨⟩
            exact ⟨rfl, .nil⟩
          · rintro ⟨-, ⟨⟩⟩
            rfl
      | some form =>
          constructor
          · rintro ⟨⟩
          · rintro ⟨⟨⟩, -⟩
  | cons c chunks ih =>
      simp only [ofChunks, bind_eq_ok_iff, pure_eq_ok_iff, ofChunk_eq_ok_iff, ih]
      constructor
      · rintro ⟨front, hfront, back, ⟨hclosed, hback⟩, rfl⟩
        exact ⟨hclosed, .cons hfront hback⟩
      · rintro ⟨hclosed, hsegments⟩
        cases hsegments with
        | cons hfront hback =>
            exact ⟨_, hfront, _, ⟨hclosed, hback⟩, rfl⟩

/-- An expression without an end is reported once all chunks before it are read. -/
theorem ofChunks_eq_unclosed_iff
    {length offset : Nat} {unclosed : Option Form} {chunks : List Chunk} {opener : Bytes}
    {span : Span} :
    ofChunks isHelper site length unclosed offset chunks = .error ⟨.unclosed opener, span⟩ ↔
      (∃ form, unclosed = some form ∧ opener = form.opener) ∧
        span = site.span (offset + (chunks.flatMap Chunk.source).length) length ∧
        ∃ fs, Segments isHelper site offset chunks fs := by
  induction chunks generalizing offset with
  | nil =>
      cases unclosed with
      | none =>
          constructor
          · rintro ⟨⟩
          · rintro ⟨⟨form, ⟨⟩, -⟩, -⟩
      | some form =>
          constructor
          · rintro ⟨⟩
            exact ⟨⟨form, rfl, rfl⟩, rfl, [], .nil⟩
          · rintro ⟨⟨form', ⟨⟩, rfl⟩, rfl, -⟩
            rfl
  | cons c chunks ih =>
      have hlength : offset + ((c :: chunks).flatMap Chunk.source).length =
          offset + c.source.length + (chunks.flatMap Chunk.source).length := by
        simp only [List.flatMap_cons, List.length_append]
        omega
      rw [ofChunks, hlength]
      cases hc : ofChunk isHelper site offset c with
      | error fault =>
          constructor
          · intro h
            cases h
            exact absurd rfl (ofChunk_ne_unclosed hc opener)
          · rintro ⟨-, -, fs, hsegments⟩
            cases hsegments with
            | cons hfront _ =>
                rw [ofChunk_eq_ok_iff.2 hfront] at hc
                cases hc
      | ok front =>
          have hrest : ((ofChunks isHelper site length unclosed (offset + c.source.length) chunks)
              >>= fun back => pure (front ++ back)) = .error ⟨.unclosed opener, span⟩ ↔
              ofChunks isHelper site length unclosed (offset + c.source.length) chunks =
                .error ⟨.unclosed opener, span⟩ := by
            cases ofChunks isHelper site length unclosed (offset + c.source.length) chunks with
            | ok back =>
                constructor <;> intro h <;> cases h
            | error fault =>
                exact Iff.rfl
          rw [ok_bind, hrest, ih]
          refine and_congr_right fun _ => and_congr_right fun _ => ?_
          constructor
          · rintro ⟨back, hback⟩
            exact ⟨_, .cons (ofChunk_eq_ok_iff.1 hc) hback⟩
          · rintro ⟨fs, hsegments⟩
            cases hsegments with
            | cons _ hback =>
                exact ⟨_, hback⟩

/-- Segmentation is a lossless tiling.  A text that is read has exactly one factorisation into
chunks, and its fragments are those of the chunks, each with the span of its chunk.  An expression
without an end is reported exactly where the chunks in front of it are read and end there, with the
span from its opening braces to the end of the text. -/
theorem read_segmentation
    (isHelper : Bytes → Bool)
    (site : Site)
    (raw : Bytes) :
    (∀ fs, read isHelper site raw = .ok fs →
      (∃! chunks, Tiles raw chunks []) ∧
        ∀ chunks, Tiles raw chunks [] →
          chunks.flatMap Chunk.source = raw ∧
          (∀ s, Chunk.literal s ∈ chunks → s ≠ [] ∧ Bytes.occurs Form.plain.opener s = false) ∧
          Segments isHelper site 0 chunks fs) ∧
    ∀ opener span, read isHelper site raw = .error ⟨.unclosed opener, span⟩ ↔
      ∃ chunks rest, Tiles raw chunks rest ∧ (∃ fs, Segments isHelper site 0 chunks fs) ∧
        Unclosed rest ∧ opener = (formOf rest).opener ∧
        span = site.range (raw.length - rest.length) rest.length := by
  obtain ⟨left, hscan, hleft⟩ := tiles_scan raw
  have hspan : ∀ {chunks : List Chunk} {rest : Bytes}, Tiles raw chunks rest →
      site.span (0 + (chunks.flatMap Chunk.source).length) raw.length =
        site.range (raw.length - rest.length) rest.length := by
    intro chunks rest htiles
    have hraw := congrArg List.length htiles.eq_append
    rw [List.length_append] at hraw
    rw [← Site.span_eq_range]
    congr 1 <;> omega
  refine ⟨fun fs hread => ?_, fun opener span => ?_⟩
  · obtain ⟨hclosed, hsegments⟩ := ofChunks_eq_ok_iff.1 hread
    obtain ⟨-, rfl⟩ | ⟨hunclosed, -⟩ := hleft
    · have hunique : ∀ chunks, Tiles raw chunks [] → chunks = (scan raw).chunks :=
        fun chunks htiles => (htiles.unique hscan stuck_nil stuck_nil).1
      refine ⟨⟨_, hscan, hunique⟩, fun chunks htiles => ⟨?_, fun s hs => ?_, ?_⟩⟩
      · simpa using htiles.eq_append.symm
      · obtain ⟨more, hfits⟩ := htiles.fits hs
        exact ⟨hfits.1, hfits.not_occurs⟩
      · rw [hunique chunks htiles]
        exact hsegments
    · rw [hclosed] at hunclosed
      cases hunclosed
  · rw [read, ofChunks_eq_unclosed_iff]
    constructor
    · rintro ⟨⟨form, hform, rfl⟩, rfl, hsegments⟩
      obtain ⟨hclosed, -⟩ | ⟨hunclosed, hleft⟩ := hleft
      · rw [hclosed] at hform
        cases hform
      · rw [hunclosed] at hform
        cases hform
        exact ⟨_, left, hscan, hsegments, hleft, rfl, hspan hscan⟩
    · rintro ⟨chunks, rest, htiles, hsegments, hrest, rfl, rfl⟩
      have hstuck : Stuck left := by
        obtain ⟨-, rfl⟩ | ⟨-, hunclosed⟩ := hleft
        · exact stuck_nil
        · exact hunclosed.stuck
      obtain ⟨rfl, rfl⟩ := htiles.unique hscan hrest.stuck hstuck
      obtain ⟨-, rfl⟩ | ⟨hunclosed, -⟩ := hleft
      · exact absurd hrest.1 (by decide)
      · exact ⟨⟨_, hunclosed, rfl⟩, (hspan htiles).symm, hsegments⟩

/-- `x&lt;{ {{{ a }}}}{{!-- }} --}}{{> p n={{b}}}}`: a character reference, runs of three and four
braces, a comment with two closing braces in it, and braces inside of braces. -/
def bracesSample : Bytes :=
  utf8 "x&lt;\x7b \x7b\x7b\x7b a \x7d\x7d\x7d\x7d\x7b\x7b!-- \x7d\x7d --\x7d\x7d" ++
    utf8 "\x7b\x7b> p n=\x7b\x7bb\x7d\x7d\x7d\x7d"

/-- `{{a}}{{!-- }}`: a comment without an end. -/
def openSample : Bytes := utf8 "\x7b\x7ba\x7d\x7d\x7b\x7b!-- \x7d\x7d"

/-- The first sample has one factorisation.  In text it has four fragments, the first one with its
reference resolved; in a tag the reference stands and all fragments have the span of the tag.  The
second sample is reported from the comment on. -/
theorem read_segmentation_samples :
    let interpolation : Mark := .interpolation (.raw (.dotted [utf8 "a"]))
    let inclusion : Mark := .inclusion (utf8 "p") none [(utf8 "n", .path (.raw (.dotted [utf8 "b"])))]
    let fs : List Fragment :=
      [⟨⟨10, 17⟩, .literal (utf8 "x<\x7b ")⟩, ⟨⟨17, 26⟩, interpolation⟩,
       ⟨⟨26, 27⟩, .literal (utf8 "\x7d")⟩, ⟨⟨40, 55⟩, inclusion⟩]
    let gs : List Fragment :=
      [.literal (utf8 "x&lt;\x7b "), interpolation, .literal (utf8 "\x7d"), inclusion].map
        (⟨⟨3, 60⟩, ·⟩)
    read (fun _ => false) (.text 10) bracesSample = .ok fs ∧
      read (fun _ => false) (.tag ⟨3, 60⟩) bracesSample = .ok gs ∧
      (∃! chunks, Tiles bracesSample chunks []) ∧
      (∀ chunks, Tiles bracesSample chunks [] →
        Segments (fun _ => false) (.text 10) 0 chunks fs ∧
        Segments (fun _ => false) (.tag ⟨3, 60⟩) 0 chunks gs) ∧
      read (fun _ => false) (.text 0) openSample = .error ⟨.unclosed (utf8 "\x7b\x7b!--"), ⟨5, 13⟩⟩ ∧
      ∃ chunks rest, Tiles openSample chunks rest ∧ Unclosed rest := by
  intro interpolation inclusion fs gs
  have htext : read (fun _ => false) (.text 10) bracesSample = .ok fs :=
    eq_ok_of_toOption_eq_some (by decide +kernel)
  have htag : read (fun _ => false) (.tag ⟨3, 60⟩) bracesSample = .ok gs :=
    eq_ok_of_toOption_eq_some (by decide +kernel)
  have hopen : read (fun _ => false) (.text 0) openSample =
      .error ⟨.unclosed (utf8 "\x7b\x7b!--"), ⟨5, 13⟩⟩ :=
    eq_error_of_failure?_eq_some (by decide +kernel)
  obtain ⟨hunique, hintext⟩ := (read_segmentation _ _ bracesSample).1 fs htext
  obtain ⟨-, hintag⟩ := (read_segmentation _ _ bracesSample).1 gs htag
  obtain ⟨chunks, rest, htiles, -, hrest, -⟩ := ((read_segmentation _ _ openSample).2 _ _).1 hopen
  exact ⟨htext, htag, hunique,
    fun chunks htiles => ⟨(hintext chunks htiles).2.2, (hintag chunks htiles).2.2⟩, hopen, chunks,
    rest, htiles, hrest⟩

end Fragment
end Stencil
