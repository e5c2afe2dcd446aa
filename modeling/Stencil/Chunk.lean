import Stencil.Bytes

/-!
# Chunks

A text is cut into literal runs and expressions in braces.  There are three forms of expressions:
`{{{…}}}` up to the first three closing braces, `{{!--…--}}` up to the first `--}}`, and `{{…}}` up
to the closing braces at which as many pairs of braces have closed as have opened.

Result: `scan` cuts a text into its chunks.  When an expression is never closed, the chunks before
it are given together with its form.
-/

namespace Stencil

/-- The forms of expressions. -/
inductive Form where
  | plain
  | triple
  | comment
deriving DecidableEq

namespace Form

/-- What opens an expression. -/
def opener : Form → Bytes
  | plain => utf8 "\x7b\x7b"
  | triple => utf8 "\x7b\x7b\x7b"
  | comment => utf8 "\x7b\x7b!--"

/-- What closes an expression. -/
def closer : Form → Bytes
  | plain => utf8 "\x7d\x7d"
  | triple => utf8 "\x7d\x7d\x7d"
  | comment => utf8 "--\x7d\x7d"

end Form

/-- A literal run, or an expression with what stands between its braces. -/
inductive Chunk where
  | literal (s : Bytes)
  | expression (form : Form) (payload : Bytes)
deriving DecidableEq

namespace Chunk

/-- The text that a chunk was cut from. -/
def source : Chunk → Bytes
  | literal s => s
  | expression form payload => form.opener ++ payload ++ form.closer

end Chunk

/-- The chunks of a text up to its end, or up to an expression that is never closed. -/
structure Scan where
  chunks : List Chunk
  unclosed : Option Form

/-- The text up to the next two opening braces, and the text from there on. -/
def literalRun : Bytes → Bytes × Bytes
  | [] => ([], [])
  | b :: s =>
    if Bytes.startsWith Form.plain.opener (b :: s) then ([], b :: s)
    else
      let (run, rest) := literalRun s
      (b :: run, rest)

/-- What stands before the two closing braces that end an expression, and what follows them;
`depth` further pairs of braces have to close first. -/
def closing? : (depth : Nat) → Bytes → Option (Bytes × Bytes)
  | _, [] => none
  | 0, Ascii.rbrace :: Ascii.rbrace :: s => some ([], s)
  | n + 1, Ascii.rbrace :: Ascii.rbrace :: s =>
    (closing? n s).map fun (payload, rest) => (Ascii.rbrace :: Ascii.rbrace :: payload, rest)
  | n, Ascii.lbrace :: Ascii.lbrace :: s =>
    (closing? (n + 1) s).map fun (payload, rest) => (Ascii.lbrace :: Ascii.lbrace :: payload, rest)
  | n, b :: s => (closing? n s).map fun (payload, rest) => (b :: payload, rest)

/-- The form of the expression that a text begins with. -/
def formOf (s : Bytes) : Form :=
  if Bytes.startsWith Form.triple.opener s then .triple
  else if Bytes.startsWith Form.comment.opener s then .comment
  else .plain

/-- The payload of the expression of a given form that a text begins with, and what follows it. -/
def payload? (form : Form) (s : Bytes) : Option (Bytes × Bytes) :=
  let body := s.drop form.opener.length
  match form with
  | .plain => closing? 0 body
  | form => Bytes.cut? form.closer body

section Length

theorem length_literalRun (s : Bytes) : (literalRun s).2.length ≤ s.length := by
  induction s with
  | nil => simp [literalRun]
  | cons b s ih =>
    rw [literalRun]
    split
    · exact Nat.le_refl _
    · simp only [List.length_cons]
      omega

theorem length_after {p s rest : Bytes} (h : Bytes.after? p s = some rest) :
    rest.length + p.length = s.length := by
  induction p generalizing s with
  | nil => simp_all [Bytes.after?]
  | cons a p ih =>
    cases s with
    | nil => simp [Bytes.after?] at h
    | cons b s =>
      rw [Bytes.after?] at h
      split at h
      · have := ih h
        simp only [List.length_cons]
        omega
      · simp at h

theorem length_cut {p s l r : Bytes} (h : Bytes.cut? p s = some (l, r)) :
    r.length ≤ s.length := by
  induction s generalizing l with
  | nil =>
    rw [Bytes.cut?] at h
    split at h <;> simp_all
  | cons b s ih =>
    rw [Bytes.cut?] at h
    split at h
    · next rest hr =>
      have := length_after hr
      simp only [Option.some.injEq, Prod.mk.injEq] at h
      obtain ⟨-, rfl⟩ := h
      omega
    · simp only [Option.map_eq_some_iff] at h
      obtain ⟨⟨l', r'⟩, hc, he⟩ := h
      simp only [Prod.mk.injEq] at he
      obtain ⟨-, rfl⟩ := he
      have := ih hc
      simp only [List.length_cons]
      omega

theorem length_closing {n : Nat} {s payload rest : Bytes}
    (h : closing? n s = some (payload, rest)) : rest.length ≤ s.length := by
  fun_induction closing? n s generalizing payload with
  | case1 => simp at h
  | case2 s =>
    simp only [Option.some.injEq, Prod.mk.injEq] at h
    obtain ⟨-, rfl⟩ := h
    simp only [List.length_cons]
    omega
  | case3 n s ih =>
    simp only [Option.map_eq_some_iff] at h
    obtain ⟨⟨p', r'⟩, hc, he⟩ := h
    simp only [Prod.mk.injEq] at he
    obtain ⟨-, rfl⟩ := he
    have := ih hc
    simp only [List.length_cons]
    omega
  | case4 n s ih =>
    simp only [Option.map_eq_some_iff] at h
    obtain ⟨⟨p', r'⟩, hc, he⟩ := h
    simp only [Prod.mk.injEq] at he
    obtain ⟨-, rfl⟩ := he
    have := ih hc
    simp only [List.length_cons]
    omega
  | case5 n b s _ _ _ ih =>
    simp only [Option.map_eq_some_iff] at h
    obtain ⟨⟨p', r'⟩, hc, he⟩ := h
    simp only [Prod.mk.injEq] at he
    obtain ⟨-, rfl⟩ := he
    have := ih hc
    simp only [List.length_cons]
    omega

/-- An expression consumes input. -/
theorem length_payload {form : Form} {s payload rest : Bytes} (hs : s ≠ [])
    (h : payload? form s = some (payload, rest)) : rest.length < s.length := by
  have pos : 0 < form.opener.length := by cases form <;> decide
  have hl : 0 < s.length := List.length_pos_iff.mpr hs
  have body : (s.drop form.opener.length).length < s.length := by
    rw [List.length_drop]
    omega
  cases form with
  | plain => exact Nat.lt_of_le_of_lt (length_closing h) body
  | triple => exact Nat.lt_of_le_of_lt (length_cut h) body
  | comment => exact Nat.lt_of_le_of_lt (length_cut h) body

end Length

/-- A literal run in front of chunks, unless it is empty. -/
def Scan.literal (run : Bytes) (s : Scan) : Scan :=
  if run.isEmpty then s else { s with chunks := .literal run :: s.chunks }

/-- Cuts a text into its chunks. -/
def scan (s : Bytes) : Scan :=
  let run := (literalRun s).1
  let rest := (literalRun s).2
  if _hr : rest = [] then Scan.literal run ⟨[], none⟩
  else
    match _hp : payload? (formOf rest) rest with
    | none => Scan.literal run ⟨[], some (formOf rest)⟩
    | some (payload, rest') =>
      let next := scan rest'
      Scan.literal run { next with chunks := .expression (formOf rest) payload :: next.chunks }
termination_by s.length
decreasing_by exact Nat.lt_of_lt_of_le (length_payload _hr _hp) (length_literalRun s)

end Stencil
