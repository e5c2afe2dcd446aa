import Stencil.Proofs.Offset.Mark

/-!
# Fragments by offsets

A text is cut into literals and expressions with offsets: the next opening braces are searched from
an offset on, the expression there is followed to its end, and reading goes on behind it.

Result: `readFragments_eq`.  The reader by offsets never reads outside of the text, it always moves
forward, and it gives the fragments and faults of the reader by recursion with the same spans.
-/

namespace Stencil
namespace Offset

/-! ## Expressions -/

/-- The end and the payload of an expression in two braces.  Its payload begins at `start` and has
been read up to `k`; `depth` further pairs of braces have to close first. -/
def closingFrom (raw : Bytes) (start depth k : Nat) : Option (Option (Nat × Bytes)) :=
  if _h : k + 1 < raw.length then do
    let pair ← slice? raw k (k + 2)
    if pair = Form.plain.opener then closingFrom raw start (depth + 1) (k + 2)
    else if pair = Form.plain.closer then
      if depth = 0 then return some (k + 2, ← slice? raw start k)
      else closingFrom raw start (depth - 1) (k + 2)
    else closingFrom raw start depth (k + 1)
  else some none
termination_by raw.length - k

/-- The end and the payload of an expression that ends at the first closer of its form. -/
def enclosedAt (form : Form) (raw : Bytes) (j : Nat) : Option (Option (Nat × Bytes)) := do
  let start := j + form.opener.length
  match index? form.closer (← from? raw start) with
  | none => return none
  | some k => return some (start + k + form.closer.length, ← slice? raw start (start + k))

/-- The form of the expression at an offset, with its end and its payload if it is closed. -/
def expressionAt (raw : Bytes) (j : Nat) : Option (Form × Option (Nat × Bytes)) := do
  match formOf (← from? raw j) with
  | .plain => return (.plain, ← closingFrom raw (j + 2) 0 (j + 2))
  | form => return (form, ← enclosedAt form raw j)

section Closing

variable (n : Nat) (front payload rest : Bytes)

theorem closingFrom_pair
    (x y : UInt8) :
    closingFrom (front ++ (payload ++ x :: y :: rest)) front.length n
        (front.length + payload.length) =
      if [x, y] = Form.plain.opener then
        closingFrom (front ++ (payload ++ x :: y :: rest)) front.length (n + 1)
          (front.length + payload.length + 2)
      else if [x, y] = Form.plain.closer then
        if n = 0 then some (some (front.length + payload.length + 2, payload))
        else
          closingFrom (front ++ (payload ++ x :: y :: rest)) front.length (n - 1)
            (front.length + payload.length + 2)
      else
        closingFrom (front ++ (payload ++ x :: y :: rest)) front.length n
          (front.length + payload.length + 1) := by
  have hlt : front.length + payload.length + 1 < (front ++ (payload ++ x :: y :: rest)).length := by
    simp only [List.length_append, List.length_cons]
    omega
  have hpair : slice? (front ++ (payload ++ x :: y :: rest))
      (front.length + payload.length : Nat) ((front.length + payload.length : Nat) + 2) =
        some [x, y] := by
    rw [← List.append_assoc]
    refine slice?_append (front ++ payload) [x, y] rest ?_ ?_
    · simp only [List.length_append]
    · simp only [List.length_append, List.length_cons, List.length_nil]
      omega
  have hpayload : slice? (front ++ (payload ++ x :: y :: rest)) front.length
      (front.length + payload.length : Nat) = some payload :=
    slice?_append front payload (x :: y :: rest) rfl (Int.natCast_add _ _)
  rw [closingFrom, dif_pos hlt, hpair, hpayload]
  rfl

theorem closingFrom_end
    (hrest : rest.length ≤ 1) :
    closingFrom (front ++ (payload ++ rest)) front.length n (front.length + payload.length) =
      some none := by
  have hlt : ¬ front.length + payload.length + 1 < (front ++ (payload ++ rest)).length := by
    simp only [List.length_append]
    omega
  rw [closingFrom, dif_neg hlt]

end Closing

/-- The search goes on behind some bytes of the payload. -/
theorem closingFrom_append
    {n : Nat} {front rest : Bytes}
    (h : ∀ payload, closingFrom (front ++ (payload ++ rest)) front.length n
        (front.length + payload.length) =
      some ((closing? n rest).map fun parts =>
        (front.length + payload.length + parts.1.length + 2, payload ++ parts.1)))
    (payload more : Bytes) :
    closingFrom (front ++ (payload ++ (more ++ rest))) front.length n
        (front.length + payload.length + more.length) =
      some (((closing? n rest).map fun parts => (more ++ parts.1, parts.2)).map fun parts =>
        (front.length + payload.length + parts.1.length + 2, payload ++ parts.1)) := by
  have hmore := h (payload ++ more)
  rw [List.append_assoc, List.length_append, ← Nat.add_assoc] at hmore
  rw [hmore]
  cases closing? n rest with
  | none =>
      rfl
  | some parts =>
      simp only [Option.map_some, List.length_append, List.append_assoc, Nat.add_assoc]

theorem closingFrom_eq
    (n : Nat) (front payload rest : Bytes) :
    closingFrom (front ++ (payload ++ rest)) front.length n (front.length + payload.length) =
      some ((closing? n rest).map fun parts =>
        (front.length + payload.length + parts.1.length + 2, payload ++ parts.1)) := by
  have hopener : Form.plain.opener = [Ascii.lbrace, Ascii.lbrace] := rfl
  have hcloser : Form.plain.closer = [Ascii.rbrace, Ascii.rbrace] := rfl
  have hne : [Ascii.rbrace, Ascii.rbrace] ≠ Form.plain.opener := by
    decide
  fun_induction closing? n rest generalizing payload with
  | case1 n =>
      exact closingFrom_end n front payload [] (Nat.zero_le 1)
  | case2 s =>
      have h := closingFrom_pair 0 front payload s Ascii.rbrace Ascii.rbrace
      rw [if_neg hne, if_pos hcloser.symm, if_pos rfl] at h
      rw [Option.map_some, List.append_nil]
      exact h
  | case3 n s ih =>
      have h := closingFrom_pair (n + 1) front payload s Ascii.rbrace Ascii.rbrace
      rw [if_neg hne, if_pos hcloser.symm, if_neg (Nat.succ_ne_zero n)] at h
      exact h.trans (closingFrom_append ih payload [Ascii.rbrace, Ascii.rbrace])
  | case4 n s ih =>
      have h := closingFrom_pair n front payload s Ascii.lbrace Ascii.lbrace
      rw [if_pos hopener.symm] at h
      exact h.trans (closingFrom_append ih payload [Ascii.lbrace, Ascii.lbrace])
  | case5 n b s hzero hsucc hopen ih =>
      -- A last byte alone is never compared: two bytes are taken at a time.
      cases s with
      | nil =>
          exact closingFrom_end n front payload [b] (Nat.le_refl 1)
      | cons c more =>
          have hnotOpen : [b, c] ≠ Form.plain.opener := by
            intro h
            cases h
            exact hopen more rfl rfl
          have hnotClose : [b, c] ≠ Form.plain.closer := by
            intro h
            cases h
            cases n with
            | zero =>
                exact hzero more rfl rfl rfl
            | succ n =>
                exact hsucc n more rfl rfl rfl
          rw [closingFrom_pair, if_neg hnotOpen, if_neg hnotClose]
          exact closingFrom_append ih payload [b]

/-- What is known of a closed expression at an offset: where it ends, and its payload. -/
def closedAt (form : Form) (j : Nat) (parts : Bytes × Bytes) : Nat × Bytes :=
  (j + (Chunk.expression form parts.1).source.length, parts.1)

theorem enclosedAt_eq
    (form : Form) (front body : Bytes) :
    enclosedAt form (front ++ (form.opener ++ body)) front.length =
      some ((Bytes.cut? form.closer body).map (closedAt form front.length)) := by
  have hbody : from? (front ++ (form.opener ++ body)) (front.length + form.opener.length : Nat) =
      some body := by
    rw [← List.append_assoc]
    refine from?_append (front ++ form.opener) body ?_
    rw [List.length_append]
  unfold enclosedAt
  simp only [hbody, Option.bind_eq_bind, Option.bind_some, index?]
  cases hcut : Bytes.cut? form.closer body with
  | none =>
      rfl
  | some parts =>
      obtain ⟨payload, rest⟩ := parts
      have hpayload : slice? (front ++ (form.opener ++ body))
          (front.length + form.opener.length : Nat)
          ((front.length + form.opener.length : Nat) + payload.length) = some payload := by
        rw [Bytes.eq_append_of_cut? hcut, ← List.append_assoc, List.append_assoc payload]
        refine slice?_append (front ++ form.opener) payload (form.closer ++ rest) ?_ ?_
        · rw [List.length_append]
        · rw [List.length_append]
      simp only [Option.map_some, hpayload, Option.bind_some]
      simp [closedAt, Chunk.source, Nat.add_assoc]

theorem closingFrom_body
    (front body : Bytes) :
    closingFrom (front ++ (Form.plain.opener ++ body)) (front.length + 2) 0 (front.length + 2) =
      some ((closing? 0 body).map (closedAt .plain front.length)) := by
  have hlength : (front ++ Form.plain.opener).length = front.length + 2 := List.length_append
  have h := closingFrom_eq 0 (front ++ Form.plain.opener) [] body
  rw [List.nil_append, List.append_assoc, hlength] at h
  refine h.trans ?_
  cases closing? 0 body with
  | none =>
      rfl
  | some parts =>
      have hopener : Form.plain.opener.length = 2 := rfl
      have hcloser : Form.plain.closer.length = 2 := rfl
      simp only [Option.map_some, closedAt, Chunk.source, List.length_append, hopener, hcloser,
        List.length_nil, List.nil_append, Option.some.injEq, Prod.mk.injEq, and_true]
      omega

theorem expressionAt_eq
    (front : Bytes) {rest : Bytes}
    (hstart : Bytes.startsWith Form.plain.opener rest = true) :
    expressionAt (front ++ rest) front.length =
      some (formOf rest,
        (payload? (formOf rest) rest).map (closedAt (formOf rest) front.length)) := by
  have hform := startsWith_formOf hstart
  unfold expressionAt
  rw [from?_append front rest rfl]
  simp only [Option.bind_eq_bind, Option.bind_some]
  generalize formOf rest = form at hform
  obtain ⟨body, rfl⟩ := Bytes.startsWith_iff.1 hform
  cases form with
  | plain =>
      simp only [closingFrom_body, payload?, List.drop_left, Option.bind_some]
      rfl
  | triple =>
      simp only [enclosedAt_eq, payload?, List.drop_left, Option.bind_some]
      rfl
  | comment =>
      simp only [enclosedAt_eq, payload?, List.drop_left, Option.bind_some]
      rfl

/-! ## Fragments -/

/-- The literal between two offsets, unless it is empty. -/
def literalAt (site : Site) (raw : Bytes) (start stop : Nat) : Option (List Fragment) :=
  if stop ≤ start then some []
  else do
    let s ← slice? raw start stop
    return [⟨site.span start stop, .literal (site.literal s)⟩]

/-- The fragments of a text from an offset on.  Reading goes on only behind the offset and inside of
the text. -/
def fragmentsFrom (isHelper : Bytes → Bool) (site : Site) (raw : Bytes) (i : Nat) :
    Checked Fault (List Fragment) := do
  match index? Form.plain.opener (← from? raw i) with
  | none => literalAt site raw i raw.length
  | some k =>
    let literal ← literalAt site raw i (i + k)
    match ← expressionAt raw (i + k) with
    | (form, none) => .of (.error ⟨.unclosed form.opener, site.span (i + k) raw.length⟩)
    | (form, some (stop, payload)) =>
      let span := site.span (i + k) stop
      let marks ← (ofExpression isHelper form (site.payload payload)).adapt fun cause =>
        ⟨cause, span⟩
      if _h : i < stop ∧ stop ≤ raw.length then
        let more ← fragmentsFrom isHelper site raw stop
        return literal ++ (marks.map (⟨span, ·⟩) ++ more)
      else (none : Option (List Fragment))
termination_by raw.length - i

/-- The fragments of a text. -/
def readFragments (isHelper : Bytes → Bool) (site : Site) (raw : Bytes) :
    Checked Fault (List Fragment) :=
  fragmentsFrom isHelper site raw 0

theorem index?_opener
    (s : Bytes) :
    index? Form.plain.opener s =
      if (literalRun s).2 = [] then none else some (literalRun s).1.length := by
  induction s with
  | nil =>
      rfl
  | cons b s ih =>
      unfold index? at ih ⊢
      rw [Bytes.cut?, literalRun]
      cases hafter : Bytes.after? Form.plain.opener (b :: s) with
      | some rest =>
          have hstart : Bytes.startsWith Form.plain.opener (b :: s) = true := by
            rw [Bytes.startsWith, hafter]
            rfl
          rw [if_pos hstart, if_neg (List.cons_ne_nil b s)]
          rfl
      | none =>
          have hstart : ¬ Bytes.startsWith Form.plain.opener (b :: s) = true := by
            rw [Bytes.startsWith, hafter]
            exact Bool.false_ne_true
          rw [if_neg hstart]
          by_cases hrest : (literalRun s).2 = []
          · rw [if_pos hrest] at ih
            have hcut := Option.map_eq_none_iff.1 ih
            simp only [hcut, Option.map_none, hrest, if_true]
          · rw [if_neg hrest] at ih
            obtain ⟨parts, hcut, hlength⟩ := Option.map_eq_some_iff.1 ih
            simp only [hcut, Option.map_some, hrest, if_false, List.length_cons, hlength]

/-- The literal of a run, unless it is empty. -/
def literalOf (site : Site) (offset : Nat) (run : Bytes) : List Fragment :=
  if run.isEmpty then []
  else [⟨site.span offset (offset + run.length), .literal (site.literal run)⟩]

theorem literalAt_eq
    (site : Site) (front run rest : Bytes) :
    literalAt site (front ++ (run ++ rest)) front.length (front.length + run.length) =
      some (literalOf site front.length run) := by
  have hrun : slice? (front ++ (run ++ rest)) front.length (front.length + run.length : Nat) =
      some run :=
    slice?_append front run rest rfl (Int.natCast_add _ _)
  unfold literalAt literalOf
  rw [hrun]
  cases run with
  | nil =>
      exact if_pos (Nat.le_refl _)
  | cons b run =>
      have hlt : ¬ front.length + (b :: run).length ≤ front.length := by
        simp
      exact if_neg hlt

theorem ofChunks_literal
    (isHelper : Bytes → Bool) (site : Site) (length offset : Nat) (unclosed : Option Form)
    (run : Bytes) (sc : Scan) :
    Fragment.ofChunks isHelper site length unclosed offset (Scan.literal run sc).chunks =
      (Fragment.ofChunks isHelper site length unclosed (offset + run.length) sc.chunks).map
        fun fragments => literalOf site offset run ++ fragments := by
  cases run with
  | nil =>
      have hsame : Scan.literal [] sc = sc := rfl
      rw [hsame, List.length_nil, Nat.add_zero]
      cases Fragment.ofChunks isHelper site length unclosed offset sc.chunks <;> rfl
  | cons b run =>
      rfl

theorem ofChunk_expression
    (isHelper : Bytes → Bool) (site : Site) (offset : Nat) (form : Form) (payload : Bytes) :
    Fragment.ofChunk isHelper site offset (.expression form payload) =
      ((Mark.ofExpression isHelper form (site.payload payload)).mapError fun cause =>
        ⟨cause, site.span offset (offset + (Chunk.expression form payload).source.length)⟩).map
      fun marks => marks.map
        (⟨site.span offset (offset + (Chunk.expression form payload).source.length), ·⟩) := by
  unfold Fragment.ofChunk
  simp only
  cases Mark.ofExpression isHelper form (site.payload payload) <;> rfl

theorem literalAt_run
    (site : Site) (done s : Bytes) :
    literalAt site (done ++ s) done.length (done.length + (literalRun s).1.length) =
      some (literalOf site done.length (literalRun s).1) := by
  have h := literalAt_eq site done (literalRun s).1 (literalRun s).2
  rwa [literalRun_append] at h

theorem expressionAt_run
    (done : Bytes) {s : Bytes}
    (hrest : (literalRun s).2 ≠ []) :
    expressionAt (done ++ s) (done.length + (literalRun s).1.length) =
      some (formOf (literalRun s).2, (payload? (formOf (literalRun s).2) (literalRun s).2).map
        (closedAt (formOf (literalRun s).2) (done.length + (literalRun s).1.length))) := by
  have h := expressionAt_eq (done ++ (literalRun s).1) (startsWith_literalRun hrest)
  rwa [List.append_assoc, literalRun_append, List.length_append] at h

/-- A text up to the end of the first expression in it. -/
theorem append_expression_run
    (done : Bytes) {s payload more : Bytes}
    (hrest : (literalRun s).2 ≠ [])
    (hpayload : payload? (formOf (literalRun s).2) (literalRun s).2 = some (payload, more)) :
    done ++ s = done ++ (literalRun s).1 ++
      (Chunk.expression (formOf (literalRun s).2) payload).source ++ more := by
  have hexpression := eq_append_of_payload?
    (startsWith_formOf (startsWith_literalRun hrest)) hpayload
  rw [List.append_assoc, List.append_assoc, ← hexpression, literalRun_append]

/-- An expression has opening braces, so reading moves forward. -/
theorem length_source_pos
    (form : Form) (payload : Bytes) :
    0 < (Chunk.expression form payload).source.length := by
  have hopener : 0 < form.opener.length := by
    cases form <;> decide
  simp only [Chunk.source, List.length_append]
  omega

theorem fragmentsFrom_eq
    (isHelper : Bytes → Bool) (site : Site) (done rest : Bytes) :
    fragmentsFrom isHelper site (done ++ rest) done.length =
      .of (Fragment.ofChunks isHelper site (done ++ rest).length (scan rest).unclosed done.length
        (scan rest).chunks) := by
  -- The text before the offset is general: behind an expression it has grown by the run and the
  -- expression, and the offset with it.
  fun_induction scan rest generalizing done with
  | case1 s run rest hrest =>
      have hlength : (done ++ s).length = done.length + run.length := by
        have hs : run ++ rest = s := literalRun_append s
        rw [← hs, hrest, List.append_nil, List.length_append]
      rw [fragmentsFrom, from?_append done s rfl, Checked.lift_some, Checked.of_ok_bind,
        index?_opener, if_pos hrest]
      simp only [hlength, Scan.unclosed_literal, ofChunks_literal]
      rw [literalAt_run, Checked.lift_some]
      simp only [Fragment.ofChunks, Except.map, List.append_nil]
      rfl
  | case2 s run rest hrest hpayload =>
      rw [fragmentsFrom, from?_append done s rfl, Checked.lift_some, Checked.of_ok_bind,
        index?_opener, if_neg hrest]
      simp only
      rw [literalAt_run, expressionAt_run done hrest, hpayload, Checked.lift_some,
        Checked.of_ok_bind, Checked.lift_some, Checked.of_ok_bind, Scan.unclosed_literal,
        ofChunks_literal]
      rfl
  | case3 s run rest hrest payload more hpayload next ih =>
      have hs : done ++ s =
          done ++ run ++ (Chunk.expression (formOf rest) payload).source ++ more :=
        append_expression_run done hrest hpayload
      have hguard : done.length <
            done.length + run.length + (Chunk.expression (formOf rest) payload).source.length ∧
          done.length + run.length + (Chunk.expression (formOf rest) payload).source.length ≤
            (done ++ s).length := by
        have hpos := length_source_pos (formOf rest) payload
        rw [hs]
        simp only [List.length_append]
        omega
      have hmore := ih (done ++ run ++ (Chunk.expression (formOf rest) payload).source)
      rw [← hs, List.length_append, List.length_append] at hmore
      rw [fragmentsFrom, from?_append done s rfl, Checked.lift_some, Checked.of_ok_bind,
        index?_opener, if_neg hrest]
      simp only
      rw [literalAt_run, expressionAt_run done hrest, hpayload, Checked.lift_some,
        Checked.of_ok_bind, Checked.lift_some, Checked.of_ok_bind, Scan.unclosed_literal,
        ofChunks_literal]
      simp only [Option.map_some, closedAt, ofExpression_eq, Checked.adapt_of]
      simp only [run, rest] at hguard hmore ⊢
      rw [Fragment.ofChunks, ofChunk_expression]
      cases Mark.ofExpression isHelper (formOf (literalRun s).2) (site.payload payload) with
      | error cause =>
          rfl
      | ok marks =>
          simp only [ok_mapError, Checked.of_ok_bind]
          rw [dif_pos hguard, hmore]
          generalize Fragment.ofChunks isHelper site (done ++ s).length next.unclosed _
            next.chunks = result
          cases result <;> rfl

theorem readFragments_eq
    (isHelper : Bytes → Bool) (site : Site) (raw : Bytes) :
    readFragments isHelper site raw = .of (Fragment.read isHelper site raw) :=
  fragmentsFrom_eq isHelper site [] raw

end Offset
end Stencil
