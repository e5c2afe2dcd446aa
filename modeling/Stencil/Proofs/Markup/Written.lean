import Stencil.Markup.Event
import Stencil.Node
import Stencil.Proofs.Chunk
import Stencil.Proofs.Text.Escape

/-!
# Written markup

How the tags and texts of a forest are written, and that reading a token from the front of written
markup gives back what was written, whatever follows.

Results: `readToken?_text`, `readToken?_startTag` and `readToken?_endTag`.
-/

namespace Stencil

/-! ## How elements are written -/

/-- Attributes behind the name of a tag, with their values as they are written. -/
def writtenAttributes (attributes : List (Bytes × Bytes)) : Bytes :=
  attributes.flatMap fun a => utf8 " " ++ a.1 ++ utf8 "=\"" ++ a.2 ++ utf8 "\""

/-- A start tag with attribute values as they are written. -/
def startTag (tag : Bytes) (attributes : List (Bytes × Bytes)) : Bytes :=
  utf8 "<" ++ tag ++ writtenAttributes attributes ++ utf8 ">"

/-- An end tag. -/
def endTag (tag : Bytes) : Bytes := utf8 "</" ++ tag ++ utf8 ">"

namespace Node

/-- The attributes with their values escaped. -/
def escapedAttributes (attributes : List (Bytes × Bytes)) : List (Bytes × Bytes) :=
  attributes.map fun a => (a.1, Text.escapeHtml a.2)

theorem toHtml_element
    (tag : Bytes) (attributes : List (Bytes × Bytes)) (children : List Node) :
    toHtml (.element tag attributes children) =
      startTag tag (escapedAttributes attributes) ++
        (if voidTags.contains tag then [] else forestHtml children ++ endTag tag) := by
  have hattributes : attributes.flatMap attributeHtml =
      writtenAttributes (escapedAttributes attributes) := by
    simp only [writtenAttributes, escapedAttributes, List.flatMap_map]
    rfl
  simp only [toHtml, startTag, endTag, hattributes, List.append_assoc]

end Node

/-- Escaped text begins with a brace only where the text does. -/
theorem Text.head?_of_escapeHtml
    {s : Bytes}
    (h : (escapeHtml s).head? = some Ascii.lbrace) :
    s.head? = some Ascii.lbrace := by
  cases s with
  | nil =>
      exact h
  | cons b rest =>
      change (escapeByte b ++ escapeHtml rest).head? = some Ascii.lbrace at h
      by_cases hb : b ∈ escaped
      · have hreferences : ∀ b ∈ escaped, Ascii.lbrace ∉ escapeByte b := by
          decide +kernel
        obtain ⟨c, more, hc⟩ := List.exists_cons_of_ne_nil (escapeByte_ne_nil b)
        rw [hc, List.cons_append, List.head?_cons, Option.some.injEq] at h
        exact absurd (hc ▸ h ▸ List.mem_cons_self) (hreferences b hb)
      · rw [escapeByte_of_not_mem hb] at h
        exact h

/-- Escaping puts no two opening braces next to each other. -/
theorem Text.occurs_escapeHtml
    {s : Bytes}
    (h : Bytes.occurs Markup.opener s = false) :
    Bytes.occurs Markup.opener (escapeHtml s) = false := by
  induction s with
  | nil =>
      exact h
  | cons b rest ih =>
      rw [Bytes.occurs_cons, Bool.or_eq_false_iff] at h
      have hrest := ih h.2
      change Bytes.occurs Markup.opener (escapeByte b ++ escapeHtml rest) = false
      by_cases hb : b ∈ escaped
      · have hreferences : ∀ b ∈ escaped, Ascii.lbrace ∉ escapeByte b := by
          decide +kernel
        rw [Bytes.occurs_append_of_not_mem (hreferences b hb), hrest]
      · rw [escapeByte_of_not_mem hb, List.singleton_append, Bytes.occurs_cons, hrest,
          Bool.or_false]
        refine Bool.eq_false_iff.2 fun hstart => ?_
        obtain ⟨hbrace, hnext⟩ := Bytes.startsWith_opener.1 hstart
        have hsource := Bytes.startsWith_opener.2 ⟨hbrace, head?_of_escapeHtml hnext⟩
        rw [h.1] at hsource
        cases hsource

/-! ## Names -/

namespace Markup

/-- Whether a byte is a lower-case letter, a digit or a hyphen. -/
def isPlainByte (b : UInt8) : Bool :=
  (decide (0x61 ≤ b) && decide (b ≤ 0x7a)) || Ascii.isDigit b || b == Ascii.minus

/-- Whether a text consists of lower-case letters, digits and hyphens and begins with a letter. -/
def isPlainName : Bytes → Bool
  | [] => false
  | b :: rest => decide (0x61 ≤ b) && decide (b ≤ 0x7a) && rest.all isPlainByte

theorem toLower_of_isPlainByte
    {b : UInt8}
    (hb : isPlainByte b = true) :
    Ascii.toLower b = b := by
  simp only [isPlainByte, Ascii.isDigit, Bool.or_eq_true, Bool.and_eq_true, decide_eq_true_eq,
    beq_iff_eq, UInt8.le_iff_toNat_le] at hb
  unfold Ascii.toLower
  split
  · next hupper =>
      simp only [UInt8.le_iff_toNat_le] at hupper
      rcases hb with (hletter | hdigit) | rfl
      · exact absurd hletter.1 (Nat.not_le.2 (Nat.lt_of_le_of_lt hupper.2 (by decide)))
      · exact absurd hupper.1 (Nat.not_le.2 (Nat.lt_of_le_of_lt hdigit.2 (by decide)))
      · exact absurd hupper.1 (by decide)
  · rfl

/-- A plain byte is none of the bytes with a meaning in tags or expressions. -/
theorem ne_of_isPlainByte
    {b c : UInt8}
    (hb : isPlainByte b = true)
    (hc : isPlainByte c = false) :
    b ≠ c := by
  rintro rfl
  rw [hb] at hc
  cases hc

theorem isNameByte_of_isPlainByte
    {b : UInt8}
    (hb : isPlainByte b = true) :
    isNameByte b = true := by
  have hne : ∀ c, isPlainByte c = false → (b == c) = false := fun c hc =>
    beq_eq_false_iff_ne.2 (ne_of_isPlainByte hb hc)
  simp only [isNameByte, isSpace, hne Ascii.blank (by decide), hne Ascii.newline (by decide),
    hne Ascii.carriageReturn (by decide), hne Ascii.tab (by decide), hne Ascii.formFeed (by decide),
    hne Ascii.slash (by decide), hne Ascii.greater (by decide), Bool.or_self, Bool.not_false]

section PlainName

variable {s : Bytes} (hs : isPlainName s = true)

include hs in
theorem isPlainByte_of_isPlainName :
    ∀ b ∈ s, isPlainByte b = true := by
  intro b hb
  cases s with
  | nil =>
      cases hb
  | cons c rest =>
      simp only [isPlainName, Bool.and_eq_true, List.all_eq_true] at hs
      rcases List.mem_cons.1 hb with rfl | hb
      · simp only [isPlainByte, hs.1.1, hs.1.2, Bool.and_self, Bool.true_or]
      · exact hs.2 b hb

include hs in
theorem exists_cons_of_isPlainName :
    ∃ b rest, s = b :: rest ∧ Ascii.isLetter b = true := by
  cases s with
  | nil =>
      cases hs
  | cons b rest =>
      simp only [isPlainName, Bool.and_eq_true] at hs
      exact ⟨b, rest, rfl, by simp only [Ascii.isLetter, hs.1.1, hs.1.2, Bool.and_self,
        Bool.true_or]⟩

include hs in
theorem map_toLower_of_isPlainName :
    s.map Ascii.toLower = s := by
  have hid : ∀ b ∈ s, Ascii.toLower b = id b := fun b hb =>
    toLower_of_isPlainByte (isPlainByte_of_isPlainName hs b hb)
  rw [List.map_congr_left hid, List.map_id]

include hs in
theorem occurs_opener_of_isPlainName :
    Bytes.occurs opener s = false := by
  have hbrace : Ascii.lbrace ∉ s := fun h =>
    ne_of_isPlainByte (isPlainByte_of_isPlainName hs _ h) (by decide) rfl
  have h := Bytes.occurs_append_of_not_mem hbrace []
  rwa [List.append_nil] at h

end PlainName

/-! ## Tags -/

/-- A key is read up to its equals sign. -/
theorem readTag_key
    {k : Bytes}
    (hk : ∀ b ∈ k, isPlainByte b = true)
    (front rest : Bytes) :
    readTag (.key front) (k ++ Ascii.equals :: rest) = readTag (.beforeValue (front ++ k)) rest := by
  induction k generalizing front with
  | nil =>
      simp [readTag]
  | cons b k ih =>
      have hb := hk b List.mem_cons_self
      have hname := isNameByte_of_isPlainByte hb
      have hequals : b ≠ Ascii.equals := ne_of_isPlainByte hb (by decide)
      simp only [isNameByte, Bool.not_eq_true', Bool.or_eq_false_iff, beq_eq_false_iff_ne] at hname
      obtain ⟨⟨hspace, hslash⟩, hgreater⟩ := hname
      rw [List.cons_append, readTag]
      simp only [hequals, hspace, hslash, hgreater, if_false, Bool.false_eq_true]
      rw [ih (fun c hc => hk c (List.mem_cons_of_mem b hc)), List.append_assoc,
        List.singleton_append]

/-- A quoted value is read up to its quote. -/
theorem readTag_quoted
    {v : Bytes}
    (hv : Ascii.quote ∉ v)
    (k front rest : Bytes) :
    readTag (.quoted k Ascii.quote front) (v ++ Ascii.quote :: rest) =
      prepend k (front ++ v) (readTag .between rest) := by
  induction v generalizing front with
  | nil =>
      simp [readTag]
  | cons b v ih =>
      simp only [List.mem_cons, not_or] at hv
      rw [List.cons_append, readTag, if_neg (Ne.symm hv.1), ih hv.2, List.append_assoc,
        List.singleton_append]

theorem readTag_attribute
    {a : Bytes × Bytes}
    (hkey : isPlainName a.1 = true)
    (hvalue : Ascii.quote ∉ a.2)
    (rest : Bytes) :
    readTag .between (utf8 " " ++ a.1 ++ utf8 "=\"" ++ a.2 ++ utf8 "\"" ++ rest) =
      prepend a.1 a.2 (readTag .between rest) := by
  obtain ⟨key, value⟩ := a
  obtain ⟨b, k, rfl, _⟩ := exists_cons_of_isPlainName hkey
  have hbytes := isPlainByte_of_isPlainName hkey
  have hname := isNameByte_of_isPlainByte (hbytes b List.mem_cons_self)
  simp only [isNameByte, Bool.not_eq_true', Bool.or_eq_false_iff, beq_eq_false_iff_ne] at hname
  obtain ⟨⟨hspace, hslash⟩, hgreater⟩ := hname
  have hsource : utf8 " " ++ (b :: k) ++ utf8 "=\"" ++ value ++ utf8 "\"" ++ rest =
      Ascii.blank :: b :: (k ++ Ascii.equals :: Ascii.quote :: (value ++ Ascii.quote :: rest)) := by
    simp [show utf8 " " = [Ascii.blank] from rfl, show utf8 "\"" = [Ascii.quote] from rfl,
      show utf8 "=\"" = [Ascii.equals, Ascii.quote] from rfl]
  calc readTag .between (utf8 " " ++ (b :: k) ++ utf8 "=\"" ++ value ++ utf8 "\"" ++ rest)
      = readTag .between
          (b :: (k ++ Ascii.equals :: Ascii.quote :: (value ++ Ascii.quote :: rest))) := by
        rw [hsource]
        rfl
    _ = readTag (.key [b])
          (k ++ Ascii.equals :: Ascii.quote :: (value ++ Ascii.quote :: rest)) := by
        rw [readTag, if_neg (by simp [hspace, hslash]), if_neg hgreater]
    _ = readTag (.beforeValue (b :: k)) (Ascii.quote :: (value ++ Ascii.quote :: rest)) :=
        readTag_key (fun c hc => hbytes c (List.mem_cons_of_mem b hc)) [b] _
    _ = readTag (.quoted (b :: k) Ascii.quote []) (value ++ Ascii.quote :: rest) := rfl
    _ = prepend (b :: k) value (readTag .between rest) := readTag_quoted hvalue (b :: k) [] rest

/-- Written attributes are read back one by one. -/
theorem readTag_attributes
    {attributes : List (Bytes × Bytes)}
    (h : ∀ a ∈ attributes, isPlainName a.1 = true ∧ Ascii.quote ∉ a.2)
    (rest : Bytes) :
    readTag .between (writtenAttributes attributes ++ Ascii.greater :: rest) =
      some (attributes.map fun a => ⟨a.1, a.2⟩, rest) := by
  induction attributes with
  | nil =>
      rfl
  | cons a more ih =>
      obtain ⟨hkey, hvalue⟩ := h a List.mem_cons_self
      have hmore := ih fun b hb => h b (List.mem_cons_of_mem a hb)
      rw [writtenAttributes, List.flatMap_cons, List.append_assoc, readTag_attribute hkey hvalue]
      exact congrArg _ hmore

/-! ## Tokens -/

/-- What follows a text so that the text does not go on: nothing, or markup. -/
def Boundary (rest : Bytes) : Prop := rest = [] ∨ startsMarkup rest = true

theorem startsMarkup_less
    (c : UInt8) (s : Bytes) :
    startsMarkup (Ascii.less :: c :: s) =
      (Ascii.isLetter c || c == Ascii.slash || c == Ascii.bang || c == Ascii.question) :=
  rfl

theorem startsMarkup_of_ne
    {b : UInt8}
    (hb : b ≠ Ascii.less)
    (s : Bytes) :
    startsMarkup (b :: s) = false := by
  unfold startsMarkup
  split
  · next heq =>
      cases heq
      exact absurd rfl hb
  · rfl

theorem afterText_append
    {s rest : Bytes}
    (hs : Ascii.less ∉ s)
    (hrest : Boundary rest) :
    afterText (s ++ rest) = rest := by
  induction s with
  | nil =>
      cases rest with
      | nil =>
          rfl
      | cons b rest =>
          rcases hrest with hnil | hstart
          · cases hnil
          · rw [List.nil_append, afterText, if_pos hstart]
  | cons b s ih =>
      simp only [List.mem_cons, not_or] at hs
      have hstart := startsMarkup_of_ne (Ne.symm hs.1) (s ++ rest)
      rw [List.cons_append, afterText, hstart, if_neg Bool.false_ne_true, ih hs.2]

/-- A text without angle brackets is one token. -/
theorem readToken?_text
    {s rest : Bytes}
    (hs : s ≠ [])
    (hless : Ascii.less ∉ s)
    (hrest : Boundary rest) :
    readToken? (s ++ rest) = some (.text, rest) := by
  obtain ⟨b, s, rfl⟩ := List.exists_cons_of_ne_nil hs
  simp only [List.mem_cons, not_or] at hless
  have hstart := startsMarkup_of_ne (Ne.symm hless.1) (s ++ rest)
  simp only [List.cons_append, readToken?, hstart, Bool.false_eq_true, if_false,
    afterText_append hless.2 hrest]

theorem takeWhile_name
    {s : Bytes}
    (hs : ∀ b ∈ s, isPlainByte b = true)
    {b : UInt8}
    (hb : isNameByte b = false)
    (rest : Bytes) :
    (s ++ b :: rest).takeWhile isNameByte = s ∧
      (s ++ b :: rest).dropWhile isNameByte = b :: rest := by
  have hname : ∀ c ∈ s, isNameByte c = true := fun c hc => isNameByte_of_isPlainByte (hs c hc)
  constructor
  · rw [List.takeWhile_append_of_pos hname, List.takeWhile_cons_of_neg (by simp [hb]),
      List.append_nil]
  · rw [List.dropWhile_append_of_pos hname, List.dropWhile_cons_of_neg (by simp [hb])]

theorem closesItself_of_getLast?
    {front : Bytes}
    (h : front.getLast? ≠ some Ascii.slash) :
    closesItself (front ++ [Ascii.greater]) = false := by
  unfold closesItself Bytes.endsWith
  rw [List.reverse_append, List.reverse_singleton, List.singleton_append]
  rw [← List.head?_reverse] at h
  cases hreverse : front.reverse with
  | nil =>
      rfl
  | cons b rest =>
      rw [hreverse, List.head?_cons, ne_eq, Option.some.injEq] at h
      have hne : ¬ Ascii.slash = b := Ne.symm h
      simp [Bytes.startsWith, show (utf8 "/>").reverse = [Ascii.greater, Ascii.slash] from rfl,
        Bytes.after?, hne]

theorem getLast?_writtenAttributes
    {front : Bytes}
    (hfront : Ascii.slash ∉ front)
    (attributes : List (Bytes × Bytes)) :
    (front ++ writtenAttributes attributes).getLast? ≠ some Ascii.slash := by
  rcases List.eq_nil_or_concat attributes with rfl | ⟨init, a, rfl⟩
  · intro h
    rw [writtenAttributes, List.flatMap_nil, List.append_nil] at h
    exact hfront (List.mem_of_getLast? h)
  · simp only [List.concat_eq_append, writtenAttributes, List.flatMap_append, List.flatMap_singleton,
      List.getLast?_append, show utf8 "\"" = [Ascii.quote] from rfl, List.getLast?_singleton,
      Option.some_or]
    decide

/-- What stands behind the name of a written tag ends the name. -/
theorem exists_cons_writtenAttributes
    (attributes : List (Bytes × Bytes)) (rest : Bytes) :
    ∃ b more, writtenAttributes attributes ++ Ascii.greater :: rest = b :: more ∧
      isNameByte b = false := by
  cases attributes with
  | nil =>
      exact ⟨Ascii.greater, rest, rfl, by decide⟩
  | cons a more =>
      exact ⟨Ascii.blank, _, rfl, by decide⟩

/-- A written start tag is one token. -/
theorem readToken?_startTag
    {tag : Bytes} {attributes : List (Bytes × Bytes)}
    (htag : isPlainName tag = true)
    (hattributes : ∀ a ∈ attributes, isPlainName a.1 = true ∧ Ascii.quote ∉ a.2)
    (rest : Bytes) :
    readToken? (startTag tag attributes ++ rest) =
      some (.startTag tag (attributes.map fun a => ⟨a.1, a.2⟩) false, rest) := by
  obtain ⟨b, name, rfl, hletter⟩ := exists_cons_of_isPlainName htag
  have hbytes : ∀ c ∈ name, isPlainByte c = true := fun c hc =>
    isPlainByte_of_isPlainName htag c (List.mem_cons_of_mem b hc)
  -- The input behind the first letter of the name.
  have hsource : startTag (b :: name) attributes ++ rest =
      Ascii.less :: b :: (name ++ (writtenAttributes attributes ++ Ascii.greater :: rest)) := by
    simp [startTag, show utf8 "<" = [Ascii.less] from rfl, show utf8 ">" = [Ascii.greater] from rfl]
  have hstart : startsMarkup (startTag (b :: name) attributes ++ rest) = true := by
    rw [hsource, startsMarkup_less, hletter, Bool.true_or, Bool.true_or, Bool.true_or]
  obtain ⟨c, more, hmore, hc⟩ := exists_cons_writtenAttributes attributes rest
  obtain ⟨htake, hdrop⟩ := takeWhile_name hbytes hc more
  have hself : closesItself
      ((name ++ (writtenAttributes attributes ++ Ascii.greater :: rest)).take
        ((name ++ (writtenAttributes attributes ++ Ascii.greater :: rest)).length - rest.length)) =
          false := by
    have hlast := getLast?_writtenAttributes
      (fun h => ne_of_isPlainByte (hbytes _ h) (by decide) rfl) attributes
    have hfront : name ++ (writtenAttributes attributes ++ Ascii.greater :: rest) =
        (name ++ writtenAttributes attributes ++ [Ascii.greater]) ++ rest := by simp
    rw [hfront, List.length_append, Nat.add_sub_cancel, List.take_left]
    exact closesItself_of_getLast? hlast
  rw [hsource] at hstart ⊢
  simp only [readToken?, hstart, if_true, readMarkup?, hletter]
  rw [hmore, htake, hdrop, ← hmore, readTag_attributes hattributes]
  simp only [hself]

/-- A written end tag is one token. -/
theorem readToken?_endTag
    {tag : Bytes}
    (htag : isPlainName tag = true)
    (rest : Bytes) :
    readToken? (endTag tag ++ rest) = some (.endTag, rest) := by
  obtain ⟨b, name, rfl, hletter⟩ := exists_cons_of_isPlainName htag
  have hbytes : ∀ c ∈ name, isPlainByte c = true := fun c hc =>
    isPlainByte_of_isPlainName htag c (List.mem_cons_of_mem b hc)
  have hsource : endTag (b :: name) ++ rest =
      Ascii.less :: Ascii.slash :: b :: (name ++ Ascii.greater :: rest) := by
    simp [endTag, show utf8 "</" = [Ascii.less, Ascii.slash] from rfl,
      show utf8 ">" = [Ascii.greater] from rfl]
  have hgreater : b ≠ Ascii.greater := by
    rintro rfl
    cases hletter
  obtain ⟨_, hdrop⟩ := takeWhile_name hbytes (by decide : isNameByte Ascii.greater = false) rest
  have hstart : startsMarkup (Ascii.less :: Ascii.slash :: b :: (name ++ Ascii.greater :: rest)) =
      true := rfl
  have hslash : Ascii.isLetter Ascii.slash = false := by decide
  rw [hsource]
  simp only [readToken?, hstart, if_true, readMarkup?, hslash, hletter, hgreater, if_false,
    Bool.false_eq_true, hdrop]
  rfl

/-! ## Meanings -/

theorem unixNewlines_of_not_mem
    {s : Bytes}
    (hs : Ascii.carriageReturn ∉ s) :
    unixNewlines s = s := by
  fun_induction unixNewlines s with
  | case1 =>
      rfl
  | case2 | case3 =>
      exact absurd List.mem_cons_self hs
  | case4 b s _ _ ih =>
      rw [ih fun h => hs (List.mem_cons_of_mem b h)]

/-- A written attribute means the one that was written. -/
theorem meaning_escaped
    {a : Bytes × Bytes}
    (hkey : isPlainName a.1 = true)
    (hzero : 0 ∉ a.2)
    (hreturn : Ascii.carriageReturn ∉ a.2) :
    Attribute.meaning ⟨a.1, Text.escapeHtml a.2⟩ = ⟨a.1, a.2⟩ := by
  have hnone : Ascii.carriageReturn ∉ Text.escapeHtml a.2 := fun h =>
    hreturn (Text.mem_of_mem_escapeHtml (by decide +kernel) h)
  rw [Attribute.meaning, map_toLower_of_isPlainName hkey, unixNewlines_of_not_mem hnone,
    Text.decode_escapeHtml .attribute hzero]

theorem tagName_of_isPlainName
    {tag : Bytes}
    (htag : isPlainName tag = true) :
    tagName tag = tag := by
  rw [tagName, occurs_opener_of_isPlainName htag, if_neg Bool.false_ne_true,
    map_toLower_of_isPlainName htag]

end Markup

end Stencil
