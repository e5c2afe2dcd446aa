import Stencil.Markup.Event
import Stencil.Proofs.Chunk

/-!
# Tokens tile their source

Every token is cut from the front of what is left, so the sources of the tokens, one after the
other, are the source up to where it breaks off inside a tag.

Results: `tokens_append`, and `events_placed` for the spans of markup events.
-/

namespace Stencil
namespace Markup

/-! ## What is left behind a token -/

theorem suffix_of_readTag
    {st : TagState} {s rest : Bytes} {attributes : List Attribute}
    (h : readTag st s = some (attributes, rest)) :
    rest <:+ s := by
  induction s generalizing st attributes with
  | nil =>
      cases st <;> cases h
  | cons b s ih =>
      have hmore : ∀ {st' : TagState} {as : List Attribute},
          readTag st' s = some (as, rest) → rest <:+ b :: s := fun h' =>
        (ih h').trans (List.suffix_cons b s)
      have hprepend : ∀ {k v : Bytes} {st' : TagState} {as : List Attribute},
          prepend k v (readTag st' s) = some (as, rest) → rest <:+ b :: s := by
        intro k v st' as h'
        obtain ⟨⟨as', rest'⟩, hread, heq⟩ := Option.map_eq_some_iff.1 h'
        cases heq
        exact hmore hread
      have hdone : ∀ {as as' : List Attribute}, some (as, s) = some (as', rest) →
          rest <:+ b :: s := by
        intro as as' h'
        cases h'
        exact List.suffix_cons b _
      cases st with
      | between =>
          simp only [readTag] at h
          split at h
          · exact hmore h
          · split at h
            · exact hdone h
            · exact hmore h
      | key k =>
          simp only [readTag] at h
          repeat' split at h
          all_goals first | exact hmore h | exact hprepend h | exact hdone h
      | afterKey k =>
          simp only [readTag] at h
          repeat' split at h
          all_goals first | exact hmore h | exact hprepend h | exact hdone h
      | beforeValue k =>
          simp only [readTag] at h
          repeat' split at h
          all_goals first | exact hmore h | exact hdone h
      | quoted k mark v =>
          simp only [readTag] at h
          split at h
          · exact hprepend h
          · exact hmore h
      | bare k v =>
          simp only [readTag] at h
          repeat' split at h
          all_goals first | exact hmore h | exact hprepend h | exact hdone h

theorem suffix_afterText
    (s : Bytes) :
    afterText s <:+ s := by
  induction s with
  | nil =>
      exact List.suffix_refl []
  | cons b s ih =>
      rw [afterText]
      split
      · exact List.suffix_refl _
      · exact ih.trans (List.suffix_cons b s)

theorem suffix_afterAngle
    (s : Bytes) :
    afterAngle s <:+ s := by
  induction s with
  | nil =>
      exact List.suffix_refl []
  | cons b s ih =>
      rw [afterAngle]
      split
      · exact List.suffix_cons b s
      · exact ih.trans (List.suffix_cons b s)

theorem suffix_afterComment
    (dashes : Nat) (atStart : Bool) (s : Bytes) :
    afterComment dashes atStart s <:+ s := by
  fun_induction afterComment dashes atStart s with
  | case1 | case4 =>
      exact List.nil_suffix
  | case2 | case8 =>
      next ih =>
        exact ih.trans (List.suffix_cons _ _)
  | case3 =>
      exact List.suffix_cons _ _
  | case5 =>
      exact (List.suffix_cons _ _).trans (List.suffix_cons _ _)
  | case6 | case7 =>
      next ih =>
        exact ih.trans ((List.suffix_cons _ _).trans (List.suffix_cons _ _))

theorem suffix_of_readMarkup
    {c : UInt8} {s rest : Bytes} {t : Token}
    (h : readMarkup? c s = some (t, rest)) :
    rest <:+ s := by
  unfold readMarkup? at h
  split at h
  · split at h
    · next hread =>
        cases h
        exact (suffix_of_readTag hread).trans (List.dropWhile_suffix isNameByte)
    · cases h
  · split at h
    · split at h
      · cases h
        exact List.nil_suffix
      · next d s' =>
          split at h
          · cases h
            exact List.suffix_cons _ _
          · split at h
            · obtain ⟨⟨as, rest'⟩, hread, heq⟩ := Option.map_eq_some_iff.1 h
              cases heq
              exact ((suffix_of_readTag hread).trans (List.dropWhile_suffix isNameByte)).trans
                (List.suffix_cons _ _)
            · cases h
              exact suffix_afterAngle _
    · split at h
      · split at h
        · next s' hafter =>
            cases h
            rw [Bytes.after?_eq_some_iff.1 hafter]
            exact (suffix_afterComment 0 true s').trans (List.suffix_append _ _)
        · cases h
          exact suffix_afterAngle _
      · cases h
        exact suffix_afterAngle _

theorem suffix_of_readToken
    {s rest : Bytes} {t : Token}
    (h : readToken? s = some (t, rest)) :
    rest <:+ s := by
  unfold readToken? at h
  split at h
  · cases h
  · split at h
    · split at h
      · cases h
      · exact ((suffix_of_readMarkup h).trans (List.suffix_cons _ _)).trans (List.suffix_cons _ _)
    · cases h
      exact (suffix_afterText _).trans (List.suffix_cons _ _)

theorem suffix_of_nextToken
    {raw : Option Bytes} {s rest : Bytes} {t : Token}
    (h : nextToken? raw s = some (t, rest)) :
    rest <:+ s := by
  unfold nextToken? at h
  split at h
  · exact suffix_of_readToken h
  · next name =>
      have hrest : (contentOf name s).2 <:+ s := ⟨_, contentOf_append name s⟩
      simp only at h
      split at h
      · exact (suffix_of_readToken h).trans hrest
      · cases h
        exact hrest

/-- The sources of the tokens, one after the other, are the source up to where it breaks off. -/
theorem tokens_append
    (raw : Option Bytes) (s : Bytes) :
    ∃ rest, (tokens raw s).flatMap Prod.snd ++ rest = s := by
  fun_induction tokens raw s with
  | case1 raw s hnone =>
      exact ⟨s, rfl⟩
  | case2 raw s t rest hnext ih =>
      obtain ⟨left, hleft⟩ := ih
      obtain ⟨front, rfl⟩ := suffix_of_nextToken hnext
      refine ⟨left, ?_⟩
      rw [List.flatMap_cons, List.length_append, Nat.add_sub_cancel, List.take_left,
        List.append_assoc, hleft]

/-! ## Names of start tags -/

/-- A start tag is written with its name behind an angle bracket. -/
def Token.Written : Token → Bytes → Prop
  | .startTag name _ _, source => ∃ more, source = Ascii.less :: (name ++ more)
  | .text, _ | .endTag, _ | .skipped, _ => True

theorem eq_append_of_readMarkup
    {c : UInt8} {s rest name : Bytes} {attributes : List Attribute} {selfClosing : Bool}
    (h : readMarkup? c s = some (.startTag name attributes selfClosing, rest)) :
    ∃ more, c :: s = name ++ more ++ rest := by
  unfold readMarkup? at h
  split at h
  · split at h
    · next hread =>
        cases h
        obtain ⟨more, hmore⟩ := suffix_of_readTag hread
        refine ⟨more, ?_⟩
        rw [List.append_assoc, hmore, List.cons_append, List.takeWhile_append_dropWhile]
    · cases h
  · split at h
    · split at h
      · cases h
      · split at h
        · cases h
        · split at h
          · obtain ⟨p, _, heq⟩ := Option.map_eq_some_iff.1 h
            cases heq
          · cases h
    · split at h
      · split at h <;> cases h
      · cases h

theorem less_of_startsMarkup
    {b : UInt8} {s : Bytes}
    (h : startsMarkup (b :: s) = true) :
    b = Ascii.less := by
  unfold startsMarkup at h
  split at h
  · next heq =>
      cases heq
      rfl
  · cases h

theorem written_of_readToken
    {front rest : Bytes} {t : Token}
    (h : readToken? (front ++ rest) = some (t, rest)) :
    t.Written front := by
  cases t with
  | text | endTag | skipped =>
      trivial
  | startTag name attributes selfClosing =>
      generalize hs : front ++ rest = s at h
      unfold readToken? at h
      split at h
      · cases h
      · split at h
        · next hstart =>
            split at h
            · cases h
            · obtain ⟨more, hmore⟩ := eq_append_of_readMarkup h
              rw [hmore, less_of_startsMarkup hstart] at hs
              exact ⟨more, List.append_cancel_right hs⟩
        · cases h

theorem written_of_nextToken
    {raw : Option Bytes} {front rest : Bytes} {t : Token}
    (h : nextToken? raw (front ++ rest) = some (t, rest)) :
    t.Written front := by
  unfold nextToken? at h
  split at h
  · exact written_of_readToken h
  · next name =>
      have hcontent := contentOf_append name (front ++ rest)
      simp only at h
      split at h
      · next hempty =>
          rw [List.isEmpty_iff.1 hempty, List.nil_append] at hcontent
          rw [hcontent] at h
          exact written_of_readToken h
      · simp only [Option.some.injEq, Prod.mk.injEq] at h
        obtain ⟨rfl, _⟩ := h
        trivial

theorem tokens_written
    (raw : Option Bytes) (s : Bytes) :
    ∀ p ∈ tokens raw s, p.1.Written p.2 := by
  fun_induction tokens raw s with
  | case1 raw s hnone =>
      intro p hp
      cases hp
  | case2 raw s t rest hnext ih =>
      obtain ⟨front, rfl⟩ := suffix_of_nextToken hnext
      intro p hp
      rw [List.length_append, Nat.add_sub_cancel, List.take_left] at hp
      rcases List.mem_cons.1 hp with rfl | hp
      · exact written_of_nextToken hnext
      · exact ih p hp

/-! ## Events -/

end Markup

/-- In order, and inside of a source of some length. -/
def Span.Within (span : Span) (length : Nat) : Prop :=
  span.start ≤ span.stop ∧ span.stop ≤ length

theorem Bytes.slice_append
    (front s rest : Bytes) :
    slice (front ++ s ++ rest) front.length (front.length + s.length) = s := by
  simp [slice]

theorem Bytes.append_slice_append
    {s : Bytes} {start stop : Nat}
    (h : start ≤ stop) :
    s.take start ++ slice s start stop ++ s.drop stop = s := by
  have hrest : slice s start stop ++ s.drop stop = s.drop start := by
    have hdrop : s.drop stop = (s.drop start).drop (stop - start) := by
      rw [List.drop_drop, Nat.add_sub_cancel' h]
    rw [hdrop, slice, List.take_append_drop]
  rw [List.append_assoc, hrest, List.take_append_drop]

namespace Markup

/-- An event has a span inside of the source, and a text is the part of the source there. -/
def Event.Placed (source : Bytes) : Event → Prop
  | .openTag _ _ span => span.Within source.length
  | .text raw span => span.Within source.length ∧ Bytes.slice source span.start span.stop = raw
  | .closeTag span => span.Within source.length

theorem Token.events_placed
    (t : Token) (front s rest : Bytes) :
    ∀ e ∈ t.events s front.length, e.Placed (front ++ s ++ rest) := by
  have hwithin : (⟨front.length, front.length + s.length⟩ : Span).Within
      (front ++ s ++ rest).length := by
    simp only [Span.Within, List.length_append]
    omega
  intro e he
  cases t with
  | text =>
      obtain rfl := List.mem_singleton.1 he
      exact ⟨hwithin, Bytes.slice_append front s rest⟩
  | startTag name attributes selfClosing =>
      simp only [Token.events] at he
      split at he
      · simp only [List.mem_cons, List.not_mem_nil, or_false] at he
        rcases he with rfl | rfl
        · exact hwithin
        · exact ⟨Nat.le_refl _, hwithin.2⟩
      · obtain rfl := List.mem_singleton.1 he
        exact hwithin
  | endTag =>
      obtain rfl := List.mem_singleton.1 he
      exact hwithin
  | skipped =>
      cases he

theorem eventsFrom_placed
    (tokens : List (Token × Bytes)) (front rest : Bytes) :
    ∀ e ∈ eventsFrom front.length tokens,
      e.Placed (front ++ tokens.flatMap Prod.snd ++ rest) := by
  induction tokens generalizing front with
  | nil =>
      intro e he
      cases he
  | cons token more ih =>
      obtain ⟨t, s⟩ := token
      intro e he
      rw [eventsFrom] at he
      rw [List.flatMap_cons]
      rcases List.mem_append.1 he with hfirst | hmore
      · have h := t.events_placed front s (more.flatMap Prod.snd ++ rest) e hfirst
        simpa only [List.append_assoc] using h
      · have h := ih (front ++ s) e (by simpa only [List.length_append] using hmore)
        simpa only [List.append_assoc] using h

/-- The events of a source lie in it. -/
theorem events_placed
    (source : Bytes) :
    ∀ e ∈ events source, e.Placed source := by
  obtain ⟨rest, hrest⟩ := tokens_append none source
  have h := eventsFrom_placed (tokens none source) [] rest
  rwa [List.nil_append, hrest] at h

end Markup
end Stencil
