import Stencil.Chunk
import Stencil.Markup.Event

/-!
# Chunks of a text

A text in which no two opening braces stand next to each other is a single literal.  The chunks of
any text are cut from it one after the other, and what they leave over begins an expression that is
never closed.

Results: `scan_of_not_occurs` and `scan_append`.
-/

namespace Stencil

namespace Bytes

theorem occurs_cons
    (p : Bytes) (b : UInt8) (s : Bytes) :
    occurs p (b :: s) = (startsWith p (b :: s) || occurs p s) := by
  unfold occurs startsWith
  rw [cut?]
  cases after? p (b :: s) with
  | some rest =>
      rfl
  | none =>
      simp

theorem startsWith_opener
    {b : UInt8} {s : Bytes} :
    startsWith Markup.opener (b :: s) = true ↔
      b = Ascii.lbrace ∧ s.head? = some Ascii.lbrace := by
  cases s with
  | nil =>
      simp [startsWith, Markup.opener, after?]
  | cons c rest =>
      simp only [startsWith, Markup.opener, after?, List.head?_cons, Option.some.injEq]
      by_cases hb : Ascii.lbrace = b
      · by_cases hc : Ascii.lbrace = c
        · simp [← hb, ← hc]
        · simp [← hb, hc, Ne.symm hc]
      · simp [hb, Ne.symm hb]

theorem occurs_append_of_not_mem
    {front : Bytes}
    (hfront : Ascii.lbrace ∉ front)
    (s : Bytes) :
    occurs Markup.opener (front ++ s) = occurs Markup.opener s := by
  induction front with
  | nil =>
      rfl
  | cons b front ih =>
      simp only [List.mem_cons, not_or] at hfront
      have hstart : startsWith Markup.opener (b :: (front ++ s)) = false :=
        Bool.eq_false_iff.2 fun h => hfront.1 (startsWith_opener.1 h).1.symm
      rw [List.cons_append, occurs_cons, hstart, ih hfront.2, Bool.false_or]

end Bytes

theorem literalRun_of_not_occurs
    {s : Bytes}
    (h : Bytes.occurs Markup.opener s = false) :
    literalRun s = (s, []) := by
  induction s with
  | nil =>
      rfl
  | cons b rest ih =>
      rw [Bytes.occurs_cons, Bool.or_eq_false_iff] at h
      have hstart : Bytes.startsWith Form.plain.opener (b :: rest) = false := h.1
      simp [literalRun, hstart, ih h.2]

/-- A text without two opening braces next to each other is a single literal, or nothing. -/
theorem scan_of_not_occurs
    {s : Bytes}
    (h : Bytes.occurs Markup.opener s = false) :
    scan s = ⟨if s.isEmpty then [] else [.literal s], none⟩ := by
  rw [scan]
  simp only [literalRun_of_not_occurs h, dite_true, Scan.literal]
  split <;> rfl

/-! ## Tiling -/

namespace Bytes

theorem after?_eq_some_iff
    {p s rest : Bytes} :
    after? p s = some rest ↔ s = p ++ rest := by
  induction p generalizing s with
  | nil =>
      simp [after?]
  | cons a p ih =>
      cases s with
      | nil =>
          simp [after?]
      | cons b s =>
          by_cases hab : a = b
          · simp [after?, hab, ih]
          · simp [after?, hab, Ne.symm hab]

theorem startsWith_iff
    {p s : Bytes} :
    startsWith p s = true ↔ ∃ rest, s = p ++ rest := by
  simp only [startsWith, Option.isSome_iff_exists, after?_eq_some_iff]

theorem endsWith_iff_suffix
    {p s : Bytes} :
    endsWith p s = true ↔ p <:+ s := by
  rw [endsWith, startsWith_iff, ← List.reverse_prefix]
  exact exists_congr fun rest => eq_comm

theorem eq_append_of_cut?
    {p s l r : Bytes}
    (h : cut? p s = some (l, r)) :
    s = l ++ p ++ r := by
  induction s generalizing l with
  | nil =>
      rw [cut?] at h
      split at h
      · next hp =>
          cases h
          simpa using hp
      · cases h
  | cons b s ih =>
      rw [cut?] at h
      split at h
      · next rest hrest =>
          cases h
          exact after?_eq_some_iff.1 hrest
      · obtain ⟨⟨l', r'⟩, hcut, heq⟩ := Option.map_eq_some_iff.1 h
        cases heq
        rw [ih hcut]
        simp

theorem cut?_cons_of_ne
    {sep b : UInt8}
    (h : b ≠ sep)
    (s : Bytes) :
    cut? [sep] (b :: s) = (cut? [sep] s).map fun (l, r) => (b :: l, r) := by
  simp [cut?, after?, h.symm]

theorem cut?_of_notMem
    {sep : UInt8} {s : Bytes}
    (h : sep ∉ s) :
    cut? [sep] s = none := by
  induction s with
  | nil =>
      rfl
  | cons b s ih =>
      simp only [List.mem_cons, not_or] at h
      rw [cut?_cons_of_ne (Ne.symm h.1), ih h.2]
      rfl

theorem cut?_append_cons
    {sep : UInt8} {s : Bytes}
    (h : sep ∉ s)
    (t : Bytes) :
    cut? [sep] (s ++ sep :: t) = some (s, t) := by
  induction s with
  | nil =>
      simp [cut?, after?]
  | cons b s ih =>
      simp only [List.mem_cons, not_or] at h
      rw [List.cons_append, cut?_cons_of_ne (Ne.symm h.1), ih h.2]
      rfl

/-- The part in front of a byte that does not occur in it is determined, and so is what follows. -/
theorem append_cons_inj
    {b : UInt8} {s t u v : Bytes}
    (hs : b ∉ s)
    (ht : b ∉ t)
    (h : s ++ b :: u = t ++ b :: v) :
    s = t ∧ u = v := by
  have hcut := cut?_append_cons hs u
  rw [h, cut?_append_cons ht v] at hcut
  exact ⟨(Prod.mk.inj (Option.some.inj hcut)).1.symm, (Prod.mk.inj (Option.some.inj hcut)).2.symm⟩

theorem splitOn_ne_nil
    (sep : UInt8) (s : Bytes) :
    splitOn sep s ≠ [] := by
  cases s with
  | nil =>
      exact List.cons_ne_nil _ _
  | cons b s =>
      rw [splitOn]
      split
      · exact List.cons_ne_nil _ _
      · split <;> exact List.cons_ne_nil _ _

end Bytes

theorem literalRun_append
    (s : Bytes) :
    (literalRun s).1 ++ (literalRun s).2 = s := by
  induction s with
  | nil =>
      rfl
  | cons b s ih =>
      rw [literalRun]
      split
      · rfl
      · simp [ih]

theorem startsWith_literalRun
    {s : Bytes}
    (h : (literalRun s).2 ≠ []) :
    Bytes.startsWith Form.plain.opener (literalRun s).2 = true := by
  induction s with
  | nil =>
      exact absurd rfl h
  | cons b s ih =>
      rw [literalRun] at h ⊢
      split
      · next hstart =>
          exact hstart
      · next hstart =>
          rw [if_neg hstart] at h
          exact ih h

theorem startsWith_formOf
    {s : Bytes}
    (h : Bytes.startsWith Form.plain.opener s = true) :
    Bytes.startsWith (formOf s).opener s = true := by
  unfold formOf
  split
  · next htriple =>
      exact htriple
  · split
    · next hcomment =>
        exact hcomment
    · exact h

theorem eq_append_of_closing?
    {n : Nat} {s payload rest : Bytes}
    (h : closing? n s = some (payload, rest)) :
    s = payload ++ Form.plain.closer ++ rest := by
  have hcloser : Form.plain.closer = [Ascii.rbrace, Ascii.rbrace] := rfl
  fun_induction closing? n s generalizing payload with
  | case1 =>
      cases h
  | case2 s =>
      cases h
      rfl
  | case3 n s ih | case4 n s ih | case5 n b s _ _ _ ih =>
      obtain ⟨⟨payload', rest'⟩, hclosing, heq⟩ := Option.map_eq_some_iff.1 h
      cases heq
      rw [ih hclosing]
      rfl

/-- An expression is its opening braces, its payload and its closing braces. -/
theorem eq_append_of_payload?
    {form : Form} {s payload rest : Bytes}
    (hstart : Bytes.startsWith form.opener s = true)
    (h : payload? form s = some (payload, rest)) :
    s = (Chunk.expression form payload).source ++ rest := by
  obtain ⟨body, rfl⟩ := Bytes.startsWith_iff.1 hstart
  unfold payload? at h
  simp only [List.drop_left] at h
  cases form with
  | plain =>
      rw [eq_append_of_closing? h]
      simp [Chunk.source]
  | triple | comment =>
      rw [Bytes.eq_append_of_cut? h]
      simp [Chunk.source]

theorem Scan.flatMap_source_literal
    (run : Bytes) (sc : Scan) :
    (Scan.literal run sc).chunks.flatMap Chunk.source = run ++ sc.chunks.flatMap Chunk.source := by
  unfold Scan.literal
  split
  · next hrun =>
      rw [List.isEmpty_iff.1 hrun, List.nil_append]
  · rfl

theorem Scan.unclosed_literal
    (run : Bytes) (sc : Scan) :
    (Scan.literal run sc).unclosed = sc.unclosed := by
  unfold Scan.literal
  split <;> rfl

/-- The chunks of a text are cut from it one after the other.  Something is left over only if an
expression is never closed. -/
theorem scan_append
    (s : Bytes) :
    ∃ rest, (scan s).chunks.flatMap Chunk.source ++ rest = s ∧
      ((scan s).unclosed = none → rest = []) := by
  fun_induction scan s with
  | case1 s run rest hrest =>
      refine ⟨rest, ?_, fun _ => hrest⟩
      rw [Scan.flatMap_source_literal, List.flatMap_nil, List.append_nil]
      exact literalRun_append s
  | case2 s run rest hrest hpayload =>
      refine ⟨rest, ?_, fun h => ?_⟩
      · rw [Scan.flatMap_source_literal, List.flatMap_nil, List.append_nil]
        exact literalRun_append s
      · rw [Scan.unclosed_literal] at h
        cases h
  | case3 s run rest hrest payload more hpayload next ih =>
      obtain ⟨left, htiles, hclosed⟩ := ih
      have hexpression := eq_append_of_payload?
        (startsWith_formOf (startsWith_literalRun hrest)) hpayload
      refine ⟨left, ?_, fun h => ?_⟩
      · calc (Scan.literal run { next with
              chunks := .expression (formOf rest) payload :: next.chunks }).chunks.flatMap
              Chunk.source ++ left
            = run ++ ((Chunk.expression (formOf rest) payload).source ++
                (next.chunks.flatMap Chunk.source ++ left)) := by
              rw [Scan.flatMap_source_literal, List.flatMap_cons, List.append_assoc,
                List.append_assoc]
          _ = run ++ rest := by rw [htiles, ← hexpression]
          _ = s := literalRun_append s
      · rw [Scan.unclosed_literal] at h
        exact hclosed h

end Stencil
