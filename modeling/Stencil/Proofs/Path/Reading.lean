import Stencil.Proofs.Checks
import Stencil.Proofs.Path.Spelling

/-!
# Texts that are paths

A text that is read as a path is not empty and holds no byte that would end it in an expression, and
no path is read as a trusted one.  Property names are found at the end of their text with dots in
between, so a text can only give names that are no longer than itself.

Results: `PathExpr.isName_of_read` and `PathExpr.exists_of_read_dotted`.
-/

namespace Stencil

/-- The pieces of a text, put together again. -/
theorem Bytes.join_splitOn
    (sep : UInt8) (s : Bytes) :
    join [sep] (splitOn sep s) = s := by
  induction s with
  | nil =>
      rfl
  | cons b s ih =>
      rw [splitOn]
      cases hpieces : splitOn sep s with
      | nil =>
          exact absurd hpieces (splitOn_ne_nil sep s)
      | cons piece pieces =>
          rw [hpieces] at ih
          split
          · next hb =>
              rw [join, ih, hb]
              rfl
          · cases pieces with
            | nil =>
                exact congrArg (b :: ·) ih
            | cons next pieces =>
                rw [join] at ih ⊢
                exact congrArg (b :: ·) ih

namespace PathExpr

theorem eq_of_readSegments
    {s text : Bytes} {segments : List Bytes}
    (h : readSegments s text = .ok segments) :
    segments = Bytes.splitOn Ascii.dot s ∧ ∀ b ∈ s, b ∉ Mark.reserved := by
  unfold readSegments at h
  simp only at h
  split at h
  · next hall =>
      refine ⟨(Except.ok.inj h).symm, fun b hb => ?_⟩
      rw [← Bytes.join_splitOn Ascii.dot s] at hb
      rcases Bytes.mem_join hb with rfl | ⟨piece, hpiece, hmem⟩
      · decide
      · have hsegment := List.all_eq_true.1 hall piece hpiece
        simp only [isSegment, Bool.and_eq_true, List.all_eq_true, Bool.not_eq_true',
          List.contains_eq_mem, decide_eq_false_iff_not, reserved_eq] at hsegment
        exact fun hreserved => hsegment.2 b hmem (List.mem_append_left _ hreserved)
  · cases h

/-- The forms of a path that does not climb, and its text. -/
theorem readLocal_cases
    {t : Bytes} {e : PathExpr}
    (h : readLocal t = .ok e) :
    e = .this ∧ (t = utf8 "this" ∨ t = utf8 ".") ∨
      (∃ s name tail, t = Ascii.atSign :: s ∧ e = .metadata name tail ∧
        readSegments s t = .ok (name :: tail)) ∨
      ∃ front s segments, t = front ++ s ∧ front ∈ [[], utf8 "this.", utf8 "./"] ∧
        e = .dotted segments ∧ readSegments s t = .ok segments := by
  unfold readLocal at h
  split at h
  · cases h
  · next b rest =>
      split at h
      · next hthis =>
          cases h
          exact .inl ⟨rfl, hthis⟩
      · split at h
        · next hsign =>
            subst hsign
            obtain ⟨segments, hsegments, hread⟩ := bind_eq_ok_iff.1 h
            cases segments with
            | nil =>
                cases hread
            | cons name tail =>
                cases hread
                exact .inr (.inl ⟨rest, name, tail, rfl, rfl, hsegments⟩)
        · split at h
          · cases h
          · obtain ⟨segments, hsegments, rfl⟩ := map_eq_ok_iff.1 h
            cases hthis : Bytes.after? (utf8 "this.") (b :: rest) with
            | some s =>
                rw [hthis] at hsegments
                exact .inr (.inr ⟨utf8 "this.", s, segments, Bytes.after?_eq_some_iff.1 hthis,
                  by simp, rfl, hsegments⟩)
            | none =>
                cases hdot : Bytes.after? (utf8 "./") (b :: rest) with
                | some s =>
                    rw [hthis, hdot] at hsegments
                    exact .inr (.inr ⟨utf8 "./", s, segments, Bytes.after?_eq_some_iff.1 hdot,
                      by simp, rfl, hsegments⟩)
                | none =>
                    rw [hthis, hdot] at hsegments
                    exact .inr (.inr ⟨[], b :: rest, segments, rfl, by simp, rfl, hsegments⟩)

theorem not_reserved_of_readLocal
    {t : Bytes} {e : PathExpr}
    (h : readLocal t = .ok e) :
    ∀ b ∈ t, b ∉ Mark.reserved := by
  intro b hb
  rcases readLocal_cases h with ⟨-, rfl | rfl⟩ | ⟨s, name, tail, rfl, -, hread⟩ |
    ⟨front, s, segments, rfl, hfront, -, hread⟩
  · exact (Mark.isName_iff.1 (by decide)).2 b hb
  · exact (Mark.isName_iff.1 (by decide)).2 b hb
  · rcases List.mem_cons.1 hb with rfl | hb
    · decide
    · exact (eq_of_readSegments hread).2 b hb
  · rcases List.mem_append.1 hb with hb | hb
    · simp only [List.mem_cons, List.not_mem_nil, or_false] at hfront
      rcases hfront with rfl | rfl | rfl
      · cases hb
      · exact (Mark.isName_iff.1 (by decide)).2 b hb
      · exact (Mark.isName_iff.1 (by decide)).2 b hb
    · exact (eq_of_readSegments hread).2 b hb

/-- A path climbs by dots and slashes at its front. -/
theorem exists_of_climb
    (t : Bytes) :
    ∃ front, t = front ++ (climb t).2 ∧ ∀ b ∈ front, b ∉ Mark.reserved := by
  have hdots := (Mark.isName_iff.1 (by decide : Mark.isName (utf8 "../") = true)).2
  induction hn : t.length using Nat.strongRecOn generalizing t with
  | ind n ih =>
      by_cases hlast : t = [Ascii.dot, Ascii.dot]
      · subst hlast
        exact ⟨utf8 "..", rfl, fun b hb => hdots b (List.mem_append_left [Ascii.slash] hb)⟩
      · by_cases hstep : ∃ rest, t = Ascii.dot :: Ascii.dot :: Ascii.slash :: rest
        · obtain ⟨rest, rfl⟩ := hstep
          have hshorter : rest.length < n := by
            simp only [List.length_cons] at hn
            omega
          obtain ⟨front, hrest, hfront⟩ := ih rest.length hshorter rest rfl
          refine ⟨utf8 "../" ++ front, ?_, fun b hb => ?_⟩
          · rw [climb_outwards, List.append_assoc, ← hrest]
            rfl
          · rcases List.mem_append.1 hb with hb | hb
            · exact hdots b hb
            · exact hfront b hb
        · refine ⟨[], ?_, fun _ hb => absurd hb List.not_mem_nil⟩
          rw [climb, List.nil_append]
          · exact hlast
          · exact fun rest heq => hstep ⟨rest, heq⟩

/-- A path climbs, or it is one that does not. -/
theorem read_cases
    {t : Bytes} {e : PathExpr}
    (h : read t = .ok e) :
    readLocal t = .ok e ∨
      ∃ hops tail, e = .parent hops tail ∧ ((climb t).2 = [] ∨ readLocal (climb t).2 = .ok tail) := by
  unfold read at h
  split at h
  · exact .inl h
  · next hops _ hclimb =>
      cases h
      exact .inr ⟨hops, .this, rfl, .inl (congrArg Prod.snd hclimb)⟩
  · next hops rest _ _ hclimb =>
      obtain ⟨tail, htail, rfl⟩ := map_eq_ok_iff.1 h
      rw [hclimb]
      exact .inr ⟨hops, tail, rfl, .inr htail⟩

/-- A text that is a path could be the name of a helper as well. -/
theorem isName_of_read
    {t : Bytes} {e : PathExpr}
    (h : read t = .ok e) :
    Mark.isName t = true := by
  have hne : t ≠ [] := by
    rintro rfl
    cases h
  refine Mark.isName_iff.2 ⟨hne, ?_⟩
  rcases read_cases h with hlocal | ⟨hops, tail, rfl, hrest⟩
  · exact not_reserved_of_readLocal hlocal
  · intro b hb
    obtain ⟨front, ht, hfront⟩ := exists_of_climb t
    rw [ht] at hb
    rcases List.mem_append.1 hb with hb | hb
    · exact hfront b hb
    · rcases hrest with hnil | hlocal
      · rw [hnil] at hb
        cases hb
      · exact not_reserved_of_readLocal hlocal b hb

/-- No path is read as a trusted one. -/
theorem ne_raw_of_read
    {t : Bytes} {e : PathExpr}
    (h : read t = .ok e)
    (inner : PathExpr) :
    e ≠ .raw inner := by
  rcases read_cases h with hlocal | ⟨hops, tail, rfl, -⟩
  · rcases readLocal_cases hlocal with ⟨rfl, -⟩ | ⟨s, name, tail, -, rfl, -⟩ |
      ⟨front, s, segments, -, -, rfl, -⟩ <;> exact PathExpr.noConfusion
  · exact PathExpr.noConfusion

/-- Property names stand at the end of their text. -/
theorem exists_of_read_dotted
    {t : Bytes} {segments : List Bytes}
    (h : read t = .ok (.dotted segments)) :
    ∃ front, t = front ++ Bytes.join [Ascii.dot] segments := by
  rcases read_cases h with hlocal | ⟨hops, tail, hparent, -⟩
  · rcases readLocal_cases hlocal with ⟨hthis, -⟩ | ⟨s, name, tail, -, hmetadata, -⟩ |
      ⟨front, s, segments', rfl, -, hdotted, hread⟩
    · cases hthis
    · cases hmetadata
    · cases hdotted
      rw [(eq_of_readSegments hread).1, Bytes.join_splitOn]
      exact ⟨front, rfl⟩
  · cases hparent

/-- A text that begins with no sign of a path and with no `t` is made of property names. -/
theorem eq_dotted_of_read
    {c : UInt8} {s : Bytes} {e : PathExpr}
    (hc : c ∉ [Ascii.dot, Ascii.atSign, 0x74])
    (h : read (c :: s) = .ok e) :
    e = .dotted (Bytes.splitOn Ascii.dot (c :: s)) := by
  simp only [List.mem_cons, List.not_mem_nil, or_false, not_or] at hc
  obtain ⟨hdot, hsign, hletter⟩ := hc
  have hclimb : climb (c :: s) = (0, c :: s) := by
    rw [climb]
    · exact fun heq => hdot (List.cons.inj heq).1
    · exact fun rest heq => hdot (List.cons.inj heq).1
  rw [read, hclimb] at h
  rcases readLocal_cases h with ⟨-, heq | heq⟩ | ⟨t, name, tail, heq, -, -⟩ |
    ⟨front, t, segments, heq, hfront, rfl, hread⟩
  · exact absurd (List.cons.inj heq).1 hletter
  · exact absurd (List.cons.inj heq).1 hdot
  · exact absurd (List.cons.inj heq).1 hsign
  · simp only [List.mem_cons, List.not_mem_nil, or_false] at hfront
    rcases hfront with rfl | rfl | rfl
    · rw [List.nil_append] at heq
      rw [heq, (eq_of_readSegments hread).1]
    · exact absurd (List.cons.inj heq).1 hletter
    · exact absurd (List.cons.inj heq).1 hdot

end PathExpr
end Stencil
