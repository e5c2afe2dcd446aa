import Stencil.Proofs.Chunk.Factorisation

/-!
# What follows a chunk

Where an expression ends does not depend on what follows it.  So the text behind an expression can be
exchanged, and the chunks in front of it stay.

Results: `Chunk.Fits.exchange` for an expression, and `Tiles.exchange` for chunks that end with one.
Chunks that make up a whole text are the ones that scanning finds, `scan_of_tiles`.
-/

namespace Stencil

namespace Bytes

/-- A first occurrence stays one when the text is changed behind it. -/
theorem Clear.exchange
    {p l x rest : Bytes}
    (h : Clear p l (x ++ rest))
    (hx : p.length ≤ x.length + 1)
    (rest' : Bytes) :
    Clear p l (x ++ rest') := by
  intro l' r' heq
  refine Nat.le_of_not_lt fun hlt => ?_
  -- The earlier occurrence would lie within `l ++ x`.
  have hprefix : l' ++ p <+: l ++ x := by
    have hearlier : l' ++ p <+: l ++ (x ++ rest') := ⟨r', by rw [heq, List.append_assoc]⟩
    have hwhole : l ++ x <+: l ++ (x ++ rest') := ⟨rest', by rw [List.append_assoc]⟩
    refine List.prefix_of_prefix_length_le hearlier hwhole ?_
    rw [List.length_append, List.length_append]
    omega
  obtain ⟨more, hmore⟩ := hprefix
  have hle := h l' (more ++ rest) (by
    rw [← List.append_assoc, ← hmore]
    simp only [List.append_assoc])
  omega

theorem startsWith_exchange
    {p x : Bytes}
    (hx : p.length ≤ x.length)
    (rest rest' : Bytes) :
    startsWith p (x ++ rest) = startsWith p (x ++ rest') := by
  have hstart : ∀ rest, startsWith p (x ++ rest) = true ↔ p <+: x := by
    intro rest
    rw [startsWith_iff]
    constructor
    · rintro ⟨more, hmore⟩
      exact List.prefix_of_prefix_length_le ⟨more, hmore.symm⟩ ⟨rest, rfl⟩ hx
    · rintro ⟨more, rfl⟩
      exact ⟨more ++ rest, List.append_assoc _ _ _⟩
  rw [Bool.eq_iff_iff, hstart, hstart]

end Bytes

/-- The braces that close an expression are found whatever follows them. -/
theorem closing?_exchange
    {n : Nat} {s payload rest : Bytes}
    (h : closing? n s = some (payload, rest))
    (rest' : Bytes) :
    closing? n (payload ++ Form.plain.closer ++ rest') = some (payload, rest') := by
  have hcloser : Form.plain.closer = [Ascii.rbrace, Ascii.rbrace] := rfl
  fun_induction closing? n s generalizing payload with
  | case1 =>
      cases h
  | case2 s =>
      cases h
      rfl
  | case3 n s ih =>
      obtain ⟨⟨payload', more⟩, hclosing, heq⟩ := Option.map_eq_some_iff.1 h
      cases heq
      change (closing? n (payload' ++ Form.plain.closer ++ rest')).map _ = _
      rw [ih hclosing]
      rfl
  | case4 n s ih =>
      obtain ⟨⟨payload', more⟩, hclosing, heq⟩ := Option.map_eq_some_iff.1 h
      cases heq
      have hread : closing? n (Ascii.lbrace :: Ascii.lbrace ::
          (payload' ++ Form.plain.closer ++ rest')) =
          (closing? (n + 1) (payload' ++ Form.plain.closer ++ rest')).map fun r =>
            (Ascii.lbrace :: Ascii.lbrace :: r.1, r.2) := by
        cases n <;> rfl
      change closing? n (Ascii.lbrace :: Ascii.lbrace :: (payload' ++ Form.plain.closer ++ rest')) = _
      rw [hread, ih hclosing]
      rfl
  | case5 n b s hzero hsucc hopen ih =>
      obtain ⟨⟨payload', more⟩, hclosing, heq⟩ := Option.map_eq_some_iff.1 h
      cases heq
      -- What follows `b` begins with the same byte as before.
      have hs := eq_append_of_closing? hclosing
      have hnext : ∀ c s', payload' ++ Form.plain.closer ++ rest' = c :: s' → ∃ s'', s = c :: s'' := by
        intro c s' heq
        rw [hs]
        cases payload' with
        | nil =>
            obtain ⟨rfl, -⟩ := List.cons.inj heq
            exact ⟨_, rfl⟩
        | cons d payload' =>
            obtain ⟨rfl, -⟩ := List.cons.inj heq
            exact ⟨_, rfl⟩
      have hread : closing? n (b :: (payload' ++ Form.plain.closer ++ rest')) =
          (closing? n (payload' ++ Form.plain.closer ++ rest')).map fun r => (b :: r.1, r.2) := by
        rw [closing?]
        · intro s' hb heq
          obtain ⟨s'', hs''⟩ := hnext _ _ heq
          exact hopen s'' hb hs''
        · intro s' hn hb heq
          obtain ⟨s'', hs''⟩ := hnext _ _ heq
          exact hzero s'' hn hb hs''
        · intro m s' hn hb heq
          obtain ⟨s'', hs''⟩ := hnext _ _ heq
          exact hsucc m s'' hn hb hs''
      change closing? n (b :: (payload' ++ Form.plain.closer ++ rest')) = _
      rw [hread, ih hclosing]
      rfl

namespace Chunk

/-- An expression is found where it fits. -/
theorem Fits.payload?_eq
    {form : Form} {payload more : Bytes}
    (h : (expression form payload).Fits more) :
    payload? form ((expression form payload).source ++ more) = some (payload, more) := by
  have hstart := startsWith_plain_source form payload more
  have hform := h.formOf_eq
  cases hread : payload? (formOf ((expression form payload).source ++ more))
      ((expression form payload).source ++ more) with
  | none =>
      exact absurd rfl ((unclosed_of_payload?_eq_none hstart hread).stuck _ _ h)
  | some found =>
      have hfits := fits_of_payload? hstart hread
      have hsource := eq_append_of_payload? (startsWith_formOf hstart) hread
      rw [hform] at hread hfits hsource
      obtain ⟨hsame, hmore⟩ := h.inj hfits hsource
      rw [hread, (Chunk.expression.inj hsame).2, hmore]

/-- Where an expression ends does not depend on what follows it. -/
theorem Fits.exchange
    {form : Form} {payload more : Bytes}
    (h : (expression form payload).Fits more)
    (more' : Bytes) :
    (expression form payload).Fits more' := by
  cases form with
  | triple | comment =>
      exact Bytes.Clear.exchange h (Nat.le_succ _) more'
  | plain =>
      have hsource : ∀ rest, (expression .plain payload).source ++ rest =
          Form.plain.opener ++ (payload ++ Form.plain.closer ++ rest) := by
        intro rest
        simp only [source, List.append_assoc]
      have hread := h.payload?_eq
      have hbody : payload? .plain ((expression .plain payload).source ++ more) =
          closing? 0 (payload ++ Form.plain.closer ++ more) := by
        rw [payload?, hsource, List.drop_left]
      rw [hbody] at hread
      obtain ⟨ts, hbraces, hfalls⟩ := exists_falls_of_closing? (closing?_exchange hread more')
      have hlength : (expression .plain payload).source.length = 2 + payload.length + 2 := by
        simp only [source, List.length_append]
        rfl
      have htriple : Form.triple.opener.length = 3 := rfl
      have hcomment : Form.comment.opener.length = 5 := rfl
      refine ⟨?_, ?_, .opening :: ts, ?_, hfalls.returns⟩
      · rw [← h.1]
        exact Bytes.startsWith_exchange (by omega) more' more
      · cases payload with
        | nil =>
            rfl
        | cons b payload =>
            rw [← h.2.1]
            rw [List.length_cons] at hlength
            exact Bytes.startsWith_exchange (by omega) more' more
      · rw [hsource]
        change Brace.opening :: braces (payload ++ Form.plain.closer ++ more') = _
        rw [hbraces]
        rfl

/-- A literal run is not followed by another one. -/
theorem Fits.not_literal
    {s t more : Bytes}
    (h : (literal s).Fits ((literal t).source ++ more))
    (h' : (literal t).Fits more) :
    False := by
  have hstart := h'.not_startsWith
  obtain hnil | hopen := h.2.2
  · exact h'.1 (List.append_eq_nil_iff.1 hnil).1
  · rw [hopen] at hstart
    cases hstart

end Chunk

/-- Chunks one after the other are cut off in two goes. -/
theorem tiles_append_iff
    {s rest : Bytes} {front back : List Chunk} :
    Tiles s (front ++ back) rest ↔ ∃ more, Tiles s front more ∧ Tiles more back rest := by
  induction front generalizing s with
  | nil =>
      constructor
      · intro h
        exact ⟨s, .nil, h⟩
      · rintro ⟨more, hfront, hback⟩
        cases hfront
        exact hback
  | cons c front ih =>
      constructor
      · intro h
        cases h with
        | cons hfits htiles =>
            obtain ⟨more, hfront, hback⟩ := ih.1 htiles
            exact ⟨more, .cons hfits hfront, hback⟩
      · rintro ⟨more, hfront, hback⟩
        cases hfront with
        | cons hfits htiles =>
            exact .cons hfits (ih.2 ⟨more, htiles, hback⟩)

/-- The text behind chunks that do not end with a literal run can be exchanged. -/
theorem Tiles.exchange
    {s more : Bytes} {chunks : List Chunk}
    (h : Tiles s chunks more)
    (hlast : ∀ t, chunks.getLast? ≠ some (.literal t))
    (more' : Bytes) :
    Tiles (chunks.flatMap Chunk.source ++ more') chunks more' := by
  induction h with
  | nil =>
      exact .nil
  | @cons c middle chunks rest hfits htiles ih =>
      rw [List.flatMap_cons, List.append_assoc]
      have htail : ∀ t, chunks.getLast? ≠ some (.literal t) := by
        intro t heq
        refine hlast t ?_
        rw [List.getLast?_cons, heq]
        rfl
      refine .cons ?_ (ih htail)
      cases c with
      | expression form payload =>
          exact hfits.exchange _
      | literal t =>
          cases htiles with
          | nil =>
              exact absurd rfl (hlast t)
          | @cons d middle' chunks rest hfits' _ =>
              cases d with
              | literal u =>
                  exact (hfits.not_literal hfits').elim
              | expression form payload =>
                  rw [List.flatMap_cons, List.append_assoc]
                  have hsource : 0 < (Chunk.expression form payload).source.length :=
                    List.length_pos_iff.2 hfits'.source_ne_nil
                  have hopener : Form.plain.opener.length = 2 := rfl
                  exact ⟨hfits.1, hfits.2.1.exchange (by omega) _,
                    .inr (Chunk.startsWith_plain_source form payload _)⟩

/-- Scanning finds the chunks that a text is made of. -/
theorem scan_of_tiles
    {s : Bytes} {chunks : List Chunk}
    (h : Tiles s chunks []) :
    (scan s).chunks = chunks ∧ (scan s).unclosed = none := by
  obtain ⟨left, hscan, hleft⟩ := tiles_scan s
  have hstuck : Stuck left := by
    obtain ⟨-, rfl⟩ | ⟨-, hunclosed⟩ := hleft
    · exact stuck_nil
    · exact hunclosed.stuck
  obtain ⟨hchunks, rfl⟩ := h.unique hscan stuck_nil hstuck
  obtain ⟨hclosed, -⟩ | ⟨-, hunclosed⟩ := hleft
  · exact ⟨hchunks.symm, hclosed⟩
  · exact absurd hunclosed.1 (by decide)

end Stencil
