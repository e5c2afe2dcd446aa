import Stencil.Proofs.Markup.Tiling
import Stencil.Proofs.Markup.Written
import Stencil.Proofs.Text.Reference

/-!
# Markup of well-formed sources

All that markup is cut at are bytes of ASCII: angle brackets, quotes, white space and slashes.  So
the texts, names, keys and values of a well-formed source are well-formed.

Algorithm: `TagState.step` says what one byte of a tag does, and `readTag_cons` that reading a tag is
taking such steps.

Result: `Markup.events_encoded`.
-/

namespace Stencil
namespace Markup

/-! ## Tags -/

theorem isUtf8_append_unixNewlines
    (front s : Bytes)
    (h : isUtf8 (front ++ s) = true) :
    isUtf8 (front ++ unixNewlines s) = true := by
  have hnewline : Ascii.newline < (0x80 : UInt8) := by decide
  have hreturn : Ascii.carriageReturn < (0x80 : UInt8) := by decide
  fun_induction unixNewlines s generalizing front with
  | case1 =>
      exact h
  | case2 s ih =>
      obtain ⟨hfront, hs⟩ := (isUtf8_append_cons_iff hreturn).1 h
      exact (isUtf8_append_cons_iff hnewline).2 ⟨hfront, ih [] (isUtf8_tail hs hnewline)⟩
  | case3 s _ ih =>
      obtain ⟨hfront, hs⟩ := (isUtf8_append_cons_iff hreturn).1 h
      exact (isUtf8_append_cons_iff hnewline).2 ⟨hfront, ih [] hs⟩
  | case4 b s _ _ ih =>
      have hrest := ih (front ++ [b]) (by simpa using h)
      simpa using hrest

/-- A well-formed attribute. -/
structure Attribute.Encoded (a : Attribute) : Prop where
  key : isUtf8 a.key = true
  value : isUtf8 a.value = true

theorem Attribute.Encoded.meaning
    {a : Attribute}
    (h : a.Encoded) :
    a.meaning.Encoded where
  key := isUtf8_map_toLower h.key
  value := Entity.isUtf8_decode .attribute (isUtf8_append_unixNewlines [] a.value h.value)

/-- What one byte of a tag does: reading goes on, an attribute is complete, or the tag ends. -/
inductive TagStep where
  | more (st : TagState)
  | complete (a : Attribute) (st : TagState)
  | last (attributes : List Attribute)

/-- What a byte does in a state. -/
def TagState.step (b : UInt8) : TagState → TagStep
  | .between =>
    if isSpace b ∨ b = Ascii.slash then .more .between
    else if b = Ascii.greater then .last []
    else .more (.key [b])
  | .key k =>
    if b = Ascii.equals then .more (.beforeValue k)
    else if isSpace b then .more (.afterKey k)
    else if b = Ascii.slash then .complete ⟨k, []⟩ .between
    else if b = Ascii.greater then .last [⟨k, []⟩]
    else .more (.key (k ++ [b]))
  | .afterKey k =>
    if isSpace b then .more (.afterKey k)
    else if b = Ascii.equals then .more (.beforeValue k)
    else if b = Ascii.slash then .complete ⟨k, []⟩ .between
    else if b = Ascii.greater then .last [⟨k, []⟩]
    else .complete ⟨k, []⟩ (.key [b])
  | .beforeValue k =>
    if isSpace b then .more (.beforeValue k)
    else if b = Ascii.greater then .last [⟨k, []⟩]
    else if b = Ascii.quote ∨ b = Ascii.apostrophe then .more (.quoted k b [])
    else .more (.bare k [b])
  | .quoted k mark v =>
    if b = mark then .complete ⟨k, v⟩ .between else .more (.quoted k mark (v ++ [b]))
  | .bare k v =>
    if isSpace b then .complete ⟨k, v⟩ .between
    else if b = Ascii.greater then .last [⟨k, v⟩]
    else .more (.bare k (v ++ [b]))

/-- How reading goes on after a byte. -/
def TagStep.resume (s : Bytes) : TagStep → Option (List Attribute × Bytes)
  | .more st => readTag st s
  | .complete a st => prepend a.key a.value (readTag st s)
  | .last attributes => some (attributes, s)

theorem readTag_cons
    (st : TagState) (b : UInt8) (s : Bytes) :
    readTag st (b :: s) = (st.step b).resume s := by
  cases st <;> simp only [readTag, TagState.step] <;> (repeat' split) <;> rfl

/-- What was read of a tag and what follows it are well-formed. -/
def TagState.Encoded (s : Bytes) : TagState → Prop
  | .between => isUtf8 s = true
  | .key k => isUtf8 (k ++ s) = true
  | .afterKey k | .beforeValue k => isUtf8 k = true ∧ isUtf8 s = true
  | .quoted k mark v => isUtf8 k = true ∧ mark < 0x80 ∧ isUtf8 (v ++ s) = true
  | .bare k v => isUtf8 k = true ∧ isUtf8 (v ++ s) = true

/-- What a step leads to is well-formed. -/
def TagStep.Encoded (s : Bytes) : TagStep → Prop
  | .more st => st.Encoded s
  | .complete a st => a.Encoded ∧ st.Encoded s
  | .last attributes => (∀ a ∈ attributes, a.Encoded) ∧ isUtf8 s = true

theorem ascii_of_isSpace
    {b : UInt8}
    (h : isSpace b = true) :
    b < 0x80 := by
  simp only [isSpace, Bool.or_eq_true, beq_iff_eq] at h
  grind

section Step

variable {b : UInt8} {s k v : Bytes}

theorem ascii_of_sign
    (h : b = Ascii.equals ∨ b = Ascii.slash ∨ b = Ascii.greater ∨ b = Ascii.quote ∨
      b = Ascii.apostrophe) :
    b < 0x80 := by
  rcases h with rfl | rfl | rfl | rfl | rfl <;> decide

theorem encoded_step_between
    (h : isUtf8 (b :: s) = true) :
    (TagState.between.step b).Encoded s := by
  rw [TagState.step]
  split
  · next hb =>
      have hascii : b < 0x80 := hb.elim ascii_of_isSpace fun hb => ascii_of_sign (by simp [hb])
      exact isUtf8_tail h hascii
  · split
    · next hb =>
        exact ⟨by simp, isUtf8_tail h (ascii_of_sign (by simp [hb]))⟩
    · exact h

theorem encoded_step_afterKey
    (hk : isUtf8 k = true)
    (hs : isUtf8 (b :: s) = true) :
    ((TagState.afterKey k).step b).Encoded s := by
  rw [TagState.step]
  split
  · next hb =>
      exact ⟨hk, isUtf8_tail hs (ascii_of_isSpace hb)⟩
  · split
    · next hb =>
        exact ⟨hk, isUtf8_tail hs (ascii_of_sign (by simp [hb]))⟩
    · split
      · next hb =>
          exact ⟨⟨hk, rfl⟩, isUtf8_tail hs (ascii_of_sign (by simp [hb]))⟩
      · split
        · next hb =>
            exact ⟨List.forall_mem_singleton.2 ⟨hk, rfl⟩,
              isUtf8_tail hs (ascii_of_sign (by simp [hb]))⟩
        · exact ⟨⟨hk, rfl⟩, hs⟩

/-- A key goes on, or the byte behind it is read as behind white space. -/
theorem step_key
    (k : Bytes) (b : UInt8) :
    (TagState.key k).step b = .more (.key (k ++ [b])) ∨
      b < 0x80 ∧ (TagState.key k).step b = (TagState.afterKey k).step b := by
  simp only [TagState.step]
  by_cases hspace : isSpace b = true
  · have hequals : b ≠ Ascii.equals := by rintro rfl; exact absurd hspace (by decide)
    exact .inr ⟨ascii_of_isSpace hspace, by rw [if_neg hequals, if_pos hspace, if_pos hspace]⟩
  · by_cases hsign : b = Ascii.equals ∨ b = Ascii.slash ∨ b = Ascii.greater
    · refine .inr ⟨ascii_of_sign (by grind), ?_⟩
      simp only [hspace]
      grind
    · exact .inl (by grind)

theorem encoded_step_key
    (h : isUtf8 (k ++ b :: s) = true) :
    ((TagState.key k).step b).Encoded s := by
  rcases step_key k b with hmore | ⟨hb, hends⟩
  · rw [hmore, TagStep.Encoded, TagState.Encoded, List.append_assoc]
    exact h
  · obtain ⟨hk, hs⟩ := (isUtf8_append_cons_iff hb).1 h
    rw [hends]
    exact encoded_step_afterKey hk ((isUtf8_append_cons_iff (s := []) hb).2 ⟨rfl, hs⟩)

theorem encoded_step_beforeValue
    (hk : isUtf8 k = true)
    (hs : isUtf8 (b :: s) = true) :
    ((TagState.beforeValue k).step b).Encoded s := by
  rw [TagState.step]
  split
  · next hb =>
      exact ⟨hk, isUtf8_tail hs (ascii_of_isSpace hb)⟩
  · split
    · next hb =>
        exact ⟨List.forall_mem_singleton.2 ⟨hk, rfl⟩,
          isUtf8_tail hs (ascii_of_sign (by simp [hb]))⟩
    · split
      · next hb =>
          have hascii : b < 0x80 := ascii_of_sign (.inr (.inr (.inr hb)))
          exact ⟨hk, hascii, isUtf8_tail hs hascii⟩
      · exact ⟨hk, hs⟩

theorem encoded_step_bare
    (hk : isUtf8 k = true)
    (hv : isUtf8 (v ++ b :: s) = true) :
    ((TagState.bare k v).step b).Encoded s := by
  rw [TagState.step]
  split
  · next hb =>
      obtain ⟨hv, hs⟩ := (isUtf8_append_cons_iff (ascii_of_isSpace hb)).1 hv
      exact ⟨⟨hk, hv⟩, hs⟩
  · split
    · next hb =>
        obtain ⟨hv, hs⟩ := (isUtf8_append_cons_iff (ascii_of_sign (by simp [hb]))).1 hv
        exact ⟨List.forall_mem_singleton.2 ⟨hk, hv⟩, hs⟩
    · exact ⟨hk, by simpa using hv⟩

end Step

/-- A part of a tag that is being read ends at a byte of ASCII, or it goes on. -/
theorem TagState.Encoded.step
    {st : TagState} {b : UInt8} {s : Bytes}
    (h : st.Encoded (b :: s)) :
    (st.step b).Encoded s := by
  cases st with
  | between =>
      exact encoded_step_between h
  | key k =>
      exact encoded_step_key h
  | afterKey k =>
      exact encoded_step_afterKey h.1 h.2
  | beforeValue k =>
      exact encoded_step_beforeValue h.1 h.2
  | quoted k mark v =>
      obtain ⟨hk, hmark, hv⟩ := h
      rw [TagState.step]
      split
      · next hb =>
          obtain ⟨hv, hs⟩ := (isUtf8_append_cons_iff (hb ▸ hmark)).1 hv
          exact ⟨⟨hk, hv⟩, hs⟩
      · exact ⟨hk, hmark, by simpa using hv⟩
  | bare k v =>
      exact encoded_step_bare h.1 h.2

/-- The attributes of a tag in a well-formed source are well-formed, and so is what follows it. -/
theorem encoded_of_readTag
    {st : TagState} {s rest : Bytes} {attributes : List Attribute}
    (hst : st.Encoded s)
    (h : readTag st s = some (attributes, rest)) :
    (∀ a ∈ attributes, a.Encoded) ∧ isUtf8 rest = true := by
  induction s generalizing st attributes with
  | nil =>
      cases st <;> cases h
  | cons b s ih =>
      have hstep := hst.step
      rw [readTag_cons] at h
      cases hnext : st.step b with
      | more st' =>
          rw [hnext] at h hstep
          exact ih hstep h
      | complete a st' =>
          rw [hnext] at h hstep
          obtain ⟨⟨as, rest'⟩, hread, heq⟩ := Option.map_eq_some_iff.1 h
          cases heq
          obtain ⟨has, hrest⟩ := ih hstep.2 hread
          exact ⟨List.forall_mem_cons.2 ⟨hstep.1, has⟩, hrest⟩
      | last as =>
          rw [hnext] at h hstep
          cases h
          exact hstep

/-! ## Tokens -/

theorem ascii_of_endsName
    {b : UInt8}
    (h : isNameByte b = false) :
    b < 0x80 := by
  simp only [isNameByte, Bool.not_eq_false', Bool.or_eq_true, beq_iff_eq] at h
  rcases h with (hspace | rfl) | rfl
  · exact ascii_of_isSpace hspace
  · decide
  · decide

theorem ascii_of_isLetter
    {b : UInt8}
    (h : Ascii.isLetter b = true) :
    b < 0x80 :=
  Entity.ascii_of_isNameByte (by simp [Entity.isNameByte, h])

theorem isUtf8_afterAngle
    {s : Bytes}
    (h : EndsUtf8 s) :
    isUtf8 (afterAngle s) = true := by
  induction s with
  | nil =>
      rfl
  | cons b s ih =>
      rw [afterAngle]
      split
      · next hb =>
          exact h.isUtf8_tail (by rw [hb]; decide)
      · exact ih h.tail

theorem isUtf8_afterComment
    (dashes : Nat) (atStart : Bool) {s : Bytes}
    (h : EndsUtf8 s) :
    isUtf8 (afterComment dashes atStart s) = true := by
  have hgreater : Ascii.greater < (0x80 : UInt8) := by decide
  fun_induction afterComment dashes atStart s with
  | case1 | case4 =>
      rfl
  | case2 =>
      next ih =>
        exact ih h.tail
  | case3 =>
      next hb =>
        exact h.isUtf8_tail (hb.1 ▸ hgreater)
  | case5 =>
      exact h.tail.isUtf8_tail hgreater
  | case6 =>
      next ih =>
        exact ih h.tail.tail
  | case7 =>
      next ih =>
        exact ih h.tail.tail
  | case8 =>
      next ih =>
        exact ih h.tail

/-- Text ends where markup starts. -/
theorem head?_afterText
    (s : Bytes) :
    ∀ b ∈ (afterText s).head?, b < 0x80 := by
  induction s with
  | nil =>
      exact nofun
  | cons b s ih =>
      rw [afterText]
      split
      · next hstart =>
          rintro c ⟨⟩
          rw [less_of_startsMarkup hstart]
          decide
      · exact ih

theorem less_of_startsEndTag
    {name s : Bytes} {b : UInt8}
    (h : startsEndTag name (b :: s) = true) :
    b = Ascii.less := by
  unfold startsEndTag at h
  split at h
  · next heq =>
      cases heq
      rfl
  · cases h

theorem head?_rawRun
    (name s : Bytes) :
    ∀ b ∈ (rawRun name s).2.head?, b < 0x80 := by
  induction s with
  | nil =>
      exact nofun
  | cons b s ih =>
      rw [rawRun]
      split
      · next hstart =>
          rintro c ⟨⟩
          rw [less_of_startsEndTag hstart]
          decide
      · exact ih

theorem head?_scriptRun
    (st : ScriptState) (n : Nat) (s : Bytes) :
    ∀ b ∈ (scriptRun st n s).2.head?, b < 0x80 := by
  induction s generalizing st n with
  | nil =>
      cases n <;> exact nofun
  | cons b s ih =>
      cases n with
      | succ n =>
          exact ih st n
      | zero =>
          rw [scriptRun]
          split
          · next hstart =>
              rw [Bool.and_eq_true] at hstart
              rintro c ⟨⟩
              rw [less_of_startsEndTag hstart.1]
              decide
          · exact ih _ _

theorem head?_contentOf
    (name s : Bytes) :
    ∀ b ∈ (contentOf name s).2.head?, b < 0x80 := by
  rw [contentOf]
  split
  · intro b hb
    cases hb
  · split
    · exact head?_scriptRun _ _ _
    · exact head?_rawRun _ _

/-- A token of a well-formed source.  A name ends at a closing angle bracket. -/
def Token.Encoded : Token → Prop
  | .startTag name attributes _ =>
    isUtf8 name = true ∧ Ascii.greater ∉ name ∧ ∀ a ∈ attributes, a.Encoded
  | .text | .endTag | .skipped => True

theorem encoded_of_dropWhile
    {s : Bytes}
    (hs : isUtf8 s = true) :
    isUtf8 (s.takeWhile isNameByte) = true ∧ isUtf8 (s.dropWhile isNameByte) = true := by
  refine isUtf8_of_append (by rwa [List.takeWhile_append_dropWhile]) fun b hb => ?_
  have hhead := List.head?_dropWhile_not isNameByte s
  rw [hb] at hhead
  exact ascii_of_endsName hhead

theorem greater_not_mem_name
    {c : UInt8}
    (hc : Ascii.isLetter c = true)
    (s : Bytes) :
    Ascii.greater ∉ c :: s.takeWhile isNameByte := by
  intro hmem
  rcases List.mem_cons.1 hmem with rfl | hmem
  · cases hc
  · cases List.all_eq_true.1 List.all_takeWhile _ hmem

theorem encoded_of_readMarkup
    {c : UInt8} {s rest : Bytes} {t : Token}
    (hs : isUtf8 s = true)
    (h : readMarkup? c s = some (t, rest)) :
    t.Encoded ∧ isUtf8 rest = true := by
  have hends : EndsUtf8 s := .of_isUtf8 hs
  unfold readMarkup? at h
  split at h
  · next hletter =>
      obtain ⟨hname, hbehind⟩ := encoded_of_dropWhile hs
      split at h
      · next hread =>
          cases h
          have hstart : TagState.Encoded (s.dropWhile isNameByte) .between := hbehind
          obtain ⟨hattributes, hrest⟩ := encoded_of_readTag hstart hread
          have hfull := isUtf8_append (isUtf8_singleton (ascii_of_isLetter hletter)) hname
          exact ⟨⟨hfull, greater_not_mem_name hletter s, hattributes⟩, hrest⟩
      · cases h
  · split at h
    · split at h
      · cases h
        exact ⟨trivial, rfl⟩
      · next d s' =>
          split at h
          · next hd =>
              cases h
              exact ⟨trivial, hends.isUtf8_tail (by rw [hd]; decide)⟩
          · split at h
            · next hletter =>
                obtain ⟨⟨as, rest'⟩, hread, heq⟩ := Option.map_eq_some_iff.1 h
                cases heq
                have hs' := isUtf8_tail hs (ascii_of_isLetter hletter)
                have hstart : TagState.Encoded (s'.dropWhile isNameByte) .between :=
                  (encoded_of_dropWhile hs').2
                exact ⟨trivial, (encoded_of_readTag hstart hread).2⟩
            · cases h
              exact ⟨trivial, isUtf8_afterAngle hends⟩
    · split at h
      · split at h
        · next s' hafter =>
            cases h
            have hsuffix : s' <:+ s := ⟨_, (Bytes.after?_eq_some_iff.1 hafter).symm⟩
            exact ⟨trivial, isUtf8_afterComment 0 true (hends.suffix hsuffix)⟩
        · cases h
          exact ⟨trivial, isUtf8_afterAngle hends⟩
      · cases h
        exact ⟨trivial, isUtf8_afterAngle hends⟩

theorem ascii_of_startsMarkup
    {b c : UInt8} {s : Bytes}
    (h : startsMarkup (b :: c :: s) = true) :
    b < 0x80 ∧ c < 0x80 := by
  obtain rfl := less_of_startsMarkup h
  have hc : (Ascii.isLetter c || c == Ascii.slash || c == Ascii.bang || c == Ascii.question) =
      true := h
  simp only [Bool.or_eq_true, beq_iff_eq] at hc
  refine ⟨by decide, ?_⟩
  rcases hc with ((hletter | rfl) | rfl) | rfl
  · exact ascii_of_isLetter hletter
  · decide
  · decide
  · decide

theorem encoded_of_readToken
    {s rest : Bytes} {t : Token}
    (hs : isUtf8 s = true)
    (h : readToken? s = some (t, rest)) :
    t.Encoded ∧ isUtf8 rest = true := by
  unfold readToken? at h
  split at h
  · cases h
  · next b s' =>
      split at h
      · next hstart =>
          split at h
          · cases h
          · next c s'' =>
              obtain ⟨hb, hc⟩ := ascii_of_startsMarkup hstart
              exact encoded_of_readMarkup (isUtf8_tail (isUtf8_tail hs hb) hc) h
      · cases h
        refine ⟨trivial, ?_⟩
        obtain ⟨front, hfront⟩ := (suffix_afterText s').trans (List.suffix_cons b s')
        rw [← hfront] at hs
        exact (isUtf8_of_append hs (head?_afterText s')).2

theorem encoded_of_nextToken
    {raw : Option Bytes} {s rest : Bytes} {t : Token}
    (hs : isUtf8 s = true)
    (h : nextToken? raw s = some (t, rest)) :
    t.Encoded ∧ isUtf8 rest = true := by
  unfold nextToken? at h
  split at h
  · exact encoded_of_readToken hs h
  · next name =>
      have hcontent : isUtf8 ((contentOf name s).1 ++ (contentOf name s).2) = true := by
        rwa [contentOf_append]
      obtain ⟨_, hrest⟩ := isUtf8_of_append hcontent (head?_contentOf name s)
      simp only at h
      split at h
      · exact encoded_of_readToken hrest h
      · cases h
        exact ⟨trivial, hrest⟩

/-- A text token ends at the end or at a byte of ASCII. -/
theorem head?_of_readToken_text
    {s rest : Bytes}
    (h : readToken? s = some (.text, rest)) :
    ∀ b ∈ rest.head?, b < 0x80 := by
  unfold readToken? at h
  split at h
  · cases h
  · split at h
    · split at h
      · cases h
      · unfold readMarkup? at h
        split at h
        · split at h <;> cases h
        · split at h
          · split at h
            · cases h
              exact nofun
            · split at h
              · cases h
              · split at h
                · obtain ⟨_, _, heq⟩ := Option.map_eq_some_iff.1 h
                  cases heq
                · cases h
          · split at h
            · split at h <;> cases h
            · cases h
    · cases h
      exact head?_afterText _

theorem head?_of_nextToken_text
    {raw : Option Bytes} {s rest : Bytes}
    (h : nextToken? raw s = some (.text, rest)) :
    ∀ b ∈ rest.head?, b < 0x80 := by
  unfold nextToken? at h
  split at h
  · exact head?_of_readToken_text h
  · simp only at h
    split at h
    · exact head?_of_readToken_text h
    · cases h
      exact head?_contentOf _ s

/-- The tokens of a well-formed source are well-formed, and so are its texts. -/
theorem tokens_encoded
    (raw : Option Bytes) {s : Bytes}
    (hs : isUtf8 s = true) :
    ∀ p ∈ tokens raw s, p.1.Encoded ∧ (p.1 = .text → isUtf8 p.2 = true) := by
  fun_induction tokens raw s with
  | case1 raw s hnone =>
      intro p hp
      cases hp
  | case2 raw s t rest hnext ih =>
      obtain ⟨htoken, hrest⟩ := encoded_of_nextToken hs hnext
      obtain ⟨front, hfront⟩ := suffix_of_nextToken hnext
      intro p hp
      rcases List.mem_cons.1 hp with rfl | hp
      · refine ⟨htoken, fun htext => ?_⟩
        cases htext
        subst hfront
        rw [List.length_append, Nat.add_sub_cancel, List.take_left]
        exact (isUtf8_of_append hs (head?_of_nextToken_text hnext)).1
      · exact ih hrest p hp

/-! ## Events -/

/-- An event of a well-formed source. -/
def Event.Encoded : Event → Prop
  | .openTag name attributes _ =>
    isUtf8 name = true ∧ Ascii.greater ∉ name ∧ ∀ a ∈ attributes, a.Encoded
  | .text raw _ => isUtf8 raw = true
  | .closeTag _ => True

theorem encoded_tagName
    {written : Bytes}
    (hutf8 : isUtf8 written = true)
    (hname : Ascii.greater ∉ written) :
    isUtf8 (tagName written) = true ∧ Ascii.greater ∉ tagName written := by
  unfold tagName
  split
  · exact ⟨hutf8, hname⟩
  · refine ⟨isUtf8_map_toLower hutf8, fun hmem => ?_⟩
    obtain ⟨b, hb, hlower⟩ := List.mem_map.1 hmem
    have hsame : b = Ascii.greater := by grind [Ascii.toLower]
    exact hname (hsame ▸ hb)

theorem Token.events_encoded
    {t : Token} {source : Bytes}
    (ht : t.Encoded)
    (htext : t = .text → isUtf8 source = true)
    (offset : Nat) :
    ∀ e ∈ t.events source offset, e.Encoded := by
  intro e he
  cases t with
  | text =>
      obtain rfl := List.mem_singleton.1 he
      exact htext rfl
  | startTag name attributes selfClosing =>
      obtain ⟨hutf8, hname, hattributes⟩ := ht
      obtain ⟨htag, hgreater⟩ := encoded_tagName hutf8 hname
      have hopened : Event.Encoded (.openTag (tagName name) (attributes.map Attribute.meaning)
          ⟨offset, offset + source.length⟩) := by
        refine ⟨htag, hgreater, fun a ha => ?_⟩
        obtain ⟨written, hwritten, rfl⟩ := List.mem_map.1 ha
        exact (hattributes written hwritten).meaning
      simp only [Token.events] at he
      split at he
      · simp only [List.mem_cons, List.not_mem_nil, or_false] at he
        rcases he with rfl | rfl
        · exact hopened
        · trivial
      · obtain rfl := List.mem_singleton.1 he
        exact hopened
  | endTag =>
      obtain rfl := List.mem_singleton.1 he
      trivial
  | skipped =>
      cases he

/-- The names, keys, values and texts of a well-formed source are well-formed. -/
theorem events_encoded
    {source : Bytes}
    (hsource : isUtf8 source = true) :
    ∀ e ∈ events source, e.Encoded := by
  have hfrom : ∀ (list : List (Token × Bytes)) (offset : Nat),
      (∀ p ∈ list, p.1.Encoded ∧ (p.1 = .text → isUtf8 p.2 = true)) →
        ∀ e ∈ eventsFrom offset list, e.Encoded := by
    intro list
    induction list with
    | nil =>
        intro _ _ e he
        cases he
    | cons p rest ih =>
        intro offset hlist e he
        obtain ⟨htoken, htext⟩ := hlist p List.mem_cons_self
        rcases List.mem_append.1 he with he | he
        · exact Token.events_encoded htoken htext offset e he
        · exact ih _ (fun q hq => hlist q (List.mem_cons_of_mem p hq)) e he
  exact hfrom _ 0 (tokens_encoded none hsource)

end Markup
end Stencil
