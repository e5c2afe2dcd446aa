import Stencil.Proofs.Compile.Matching
import Stencil.Proofs.Compile.Placement
import Stencil.Proofs.Fragment.Expression
import Stencil.Proofs.Markup.Encoding
import Stencil.Proofs.Render.Linking

/-!
# Templates of well-formed sources

The literals of a template are cut from its source at braces and decoded, so those of a well-formed
source are well-formed.  Parameters are named in ASCII.  A tag's name ends at the first angle
bracket, and therefore no partial is called in it.

Result: `encoded_of_compile`, for the steps of a compiled program.
-/

namespace Stencil

/-! ## Chunks -/

theorem head?_literalRun
    (s : Bytes) :
    ∀ b ∈ (literalRun s).2.head?, b < 0x80 := by
  intro b hb
  cases hrest : (literalRun s).2 with
  | nil =>
      rw [hrest] at hb
      cases hb
  | cons c rest =>
      have hstart := startsWith_literalRun (s := s) (by rw [hrest]; exact List.cons_ne_nil c rest)
      rw [hrest] at hb hstart
      have hbrace := (Bytes.startsWith_opener.1 hstart).1
      cases hb
      rw [hbrace]
      decide

theorem isUtf8_of_payload?
    {form : Form} {s payload rest : Bytes}
    (hs : isUtf8 s = true)
    (hstart : Bytes.startsWith form.opener s = true)
    (h : payload? form s = some (payload, rest)) :
    isUtf8 rest = true := by
  have hcloser : form.closer = form.closer.dropLast ++ [Ascii.rbrace] := by
    cases form <;> decide
  rw [eq_append_of_payload? hstart h, Chunk.source, hcloser] at hs
  simp only [List.append_assoc, List.singleton_append] at hs
  rw [← List.append_assoc, ← List.append_assoc] at hs
  exact ((isUtf8_append_cons_iff (by decide)).1 hs).2

theorem Scan.mem_literal
    {run : Bytes} {sc : Scan} {c : Chunk}
    (h : c ∈ (Scan.literal run sc).chunks) :
    c = .literal run ∨ c ∈ sc.chunks := by
  unfold Scan.literal at h
  split at h
  · exact Or.inr h
  · exact List.mem_cons.1 h

/-- The literal runs of a well-formed text are well-formed. -/
theorem isUtf8_of_mem_scan
    {s text : Bytes}
    (hs : isUtf8 s = true)
    (h : .literal text ∈ (scan s).chunks) :
    isUtf8 text = true := by
  have hsplit : ∀ t : Bytes, isUtf8 t = true →
      isUtf8 (literalRun t).1 = true ∧ isUtf8 (literalRun t).2 = true := fun t ht =>
    isUtf8_of_append (by rwa [literalRun_append]) (head?_literalRun t)
  fun_induction scan s with
  | case1 s run rest hrest | case2 s run rest hrest hpayload =>
      rcases Scan.mem_literal h with hrun | hnone
      · obtain rfl := Chunk.literal.inj hrun
        exact (hsplit s hs).1
      · cases hnone
  | case3 s run rest hrest payload more hpayload next ih =>
      obtain ⟨hrun, hbehind⟩ := hsplit s hs
      rcases Scan.mem_literal h with heq | hmem
      · obtain rfl := Chunk.literal.inj heq
        exact hrun
      · rcases List.mem_cons.1 hmem with heq | hmem
        · cases heq
        · have hstart := startsWith_formOf (startsWith_literalRun hrest)
          exact ih (isUtf8_of_payload? hbehind hstart hpayload) hmem

/-- What stands between the braces of an expression stands in the text. -/
theorem mem_of_mem_payload
    {s payload : Bytes} {form : Form} {b : UInt8}
    (h : .expression form payload ∈ (scan s).chunks)
    (hb : b ∈ payload) :
    b ∈ s := by
  obtain ⟨rest, hrest, _⟩ := scan_append s
  rw [← hrest]
  refine List.mem_append_left _ (List.mem_flatMap.2 ⟨_, h, ?_⟩)
  simp [Chunk.source, hb]

/-! ## Marks -/

/-- A mark whose literal and whose parameter names are well-formed. -/
def Mark.Encoded : Mark → Prop
  | .literal s => isUtf8 s = true
  | .inclusion _ _ parameters => ∀ a ∈ parameters, isUtf8 a.1 = true
  | .interpolation _ | .opening .. | .otherwise | .closing _ => True

/-- Whether a mark calls a partial. -/
def Mark.isInclusion : Mark → Bool
  | .inclusion .. => true
  | .literal _ | .interpolation _ | .opening .. | .otherwise | .closing _ => false

theorem Argument.isUtf8_of_isIdentifier
    {s : Bytes}
    (h : isIdentifier s = true) :
    isUtf8 s = true := by
  have hstart : ∀ c : UInt8,
      (Ascii.isLetter c || c == Ascii.underscore || c == Ascii.minus) = true → c < 0x80 := by
    intro c hc
    simp only [Bool.or_eq_true, beq_iff_eq] at hc
    rcases hc with (hletter | rfl) | rfl
    · exact Markup.ascii_of_isLetter hletter
    · decide
    · decide
  have hdigit : ∀ c : UInt8, Ascii.isDigit c = true → c < 0x80 := fun c hc =>
    Entity.ascii_of_isNameByte (by simp [Entity.isNameByte, hc])
  cases s with
  | nil =>
      cases h
  | cons b rest =>
      simp only [isIdentifier, Bool.and_eq_true, List.all_eq_true] at h
      refine isUtf8_of_ascii fun c hc => ?_
      rcases List.mem_cons.1 hc with rfl | hc
      · exact hstart c h.1
      · rcases Bool.or_eq_true_iff.1 (h.2 c hc) with hc | hc
        · exact hstart c hc
        · exact hdigit c hc

/-- An argument is named in ASCII. -/
theorem Argument.isUtf8_of_read
    {token key : Bytes} {a : Argument}
    (h : Argument.read token = .ok a)
    (hkey : a.name = some key) :
    isUtf8 key = true := by
  unfold Argument.read at h
  split at h
  · cases h
  · next name value _ hsplit =>
      obtain ⟨v, _, rfl⟩ := map_eq_ok_iff.1 h
      obtain rfl : name = some key := hkey
      unfold splitName at hsplit
      split at hsplit
      · split at hsplit
        · next hidentifier =>
            cases hsplit
            exact isUtf8_of_isIdentifier hidentifier
        · cases hsplit
      · cases hsplit

theorem Text.mem_of_mem_trim
    {s : Bytes} {b : UInt8}
    (h : b ∈ Text.trim s) :
    b ∈ s := by
  obtain ⟨g, hg, hb⟩ := List.mem_flatMap.1 h
  rw [← unread_glyphs s]
  refine List.mem_flatMap.2 ⟨g, ?_, hb⟩
  have hfront := (List.dropWhile_suffix _).subset (List.mem_reverse.1 hg)
  exact (List.dropWhile_suffix _).subset (List.mem_reverse.1 hfront)

namespace Mark

/-- The marks of an expression are well-formed, and a call of a partial has the sign of one. -/
theorem encoded_of_ofExpression
    {isHelper : Bytes → Bool} {form : Form} {payload : Bytes} {marks : List Mark}
    (h : ofExpression isHelper form payload = .ok marks) :
    ∀ mark ∈ marks, mark.Encoded ∧ (mark.isInclusion = true → Ascii.greater ∈ payload) := by
  cases reads_of_ofExpression h with
  | comment | remark =>
      exact fun mark hmark => absurd hmark List.not_mem_nil
  | inclusion body read =>
      obtain ⟨name, context, parameters, rfl, hparameters⟩ := exists_of_readPartial read
      refine List.forall_mem_singleton.2 ⟨fun a ha => ?_, fun _ => Text.mem_of_mem_trim ?_⟩
      · obtain ⟨token, b, hread, hname⟩ := hparameters a ha
        exact Argument.isUtf8_of_read hread hname
      · rw [body]
        exact List.mem_cons_self
  | closing | opening | triple | trusted | otherwise | call | path =>
      simp [Mark.Encoded, isInclusion]

end Mark

/-! ## Fragments -/

namespace Fragment

/-- What holds of the literals and of the marks of the expressions of a text holds of all marks. -/
theorem read_marks
    {isHelper : Bytes → Bool} {site : Site} {s : Bytes} {Q : Mark → Prop}
    (hliteral : ∀ run, .literal run ∈ (scan s).chunks → Q (.literal (site.literal run)))
    (hexpression : ∀ form payload, .expression form payload ∈ (scan s).chunks →
      ∀ marks, Mark.ofExpression isHelper form (site.payload payload) = .ok marks →
        ∀ mark ∈ marks, Q mark) :
    InPlace (fun _ => True) (fun fs => ∀ f ∈ fs, Q f.mark) (read isHelper site s) := by
  unfold read
  generalize (scan s).chunks = chunks at hliteral hexpression
  generalize 0 = offset
  induction chunks generalizing offset with
  | nil =>
      cases (scan s).unclosed with
      | none =>
          exact fun f hf => absurd hf List.not_mem_nil
      | some form =>
          trivial
  | cons c rest ih =>
      have hfirst : InPlace (fun _ => True) (fun fs => ∀ f ∈ fs, Q f.mark)
          (ofChunk isHelper site offset c) := by
        cases c with
        | literal run =>
            exact List.forall_mem_singleton.2 (hliteral run List.mem_cons_self)
        | expression form payload =>
            simp only [ofChunk]
            split
            · next marks hmarks =>
                have hall := hexpression form payload List.mem_cons_self marks hmarks
                exact List.forall_mem_map.2 hall
            · trivial
      refine hfirst.bind fun fs hfs => ?_
      have hrest := ih (fun run hrun => hliteral run (List.mem_cons_of_mem c hrun))
        (fun form payload hmem => hexpression form payload (List.mem_cons_of_mem c hmem))
      refine (hrest (offset + c.source.length)).bind fun gs hgs => ?_
      exact List.forall_mem_append.2 ⟨hfs, hgs⟩

/-- The fragments of a well-formed text are well-formed. -/
theorem read_encoded
    {s : Bytes}
    (hs : isUtf8 s = true)
    (isHelper : Bytes → Bool) (site : Site) :
    InPlace (fun _ => True) (fun fs => ∀ f ∈ fs, f.mark.Encoded) (read isHelper site s) := by
  refine read_marks ?_ fun form payload _ marks hmarks mark hmark =>
    (Mark.encoded_of_ofExpression hmarks mark hmark).1
  intro run hrun
  have hcut := isUtf8_of_mem_scan hs hrun
  cases site with
  | text offset =>
      exact Entity.isUtf8_decode _ hcut
  | tag span =>
      exact hcut

/-- No partial is called in a name, since there is no closing angle bracket in it. -/
theorem read_name_encoded
    {name : Bytes}
    (hname : isUtf8 name = true)
    (hgreater : Ascii.greater ∉ name)
    (isHelper : Bytes → Bool) (span : Span) :
    InPlace (fun _ => True) (fun fs => ∀ f ∈ fs, f.mark.Encoded ∧ f.mark.isInclusion = false)
      (read isHelper (.tag span) name) := by
  refine read_marks (Q := fun mark => mark.Encoded ∧ mark.isInclusion = false)
    (fun run hrun => ⟨isUtf8_of_mem_scan hname hrun, rfl⟩) ?_
  intro form payload hchunk marks hmarks mark hmark
  obtain ⟨hencoded, hsign⟩ := Mark.encoded_of_ofExpression hmarks mark hmark
  refine ⟨hencoded, Bool.eq_false_iff.2 fun hinclusion => hgreater ?_⟩
  exact mem_of_mem_payload hchunk (hsign hinclusion)

end Fragment

/-- What stripping leaves of a literal is well-formed. -/
theorem Whitespace.encoded_stripAll
    {fs : List Fragment}
    (h : ∀ f ∈ fs, f.mark.Encoded) :
    ∀ f ∈ stripAll fs, f.mark.Encoded := by
  intro g hg
  obtain ⟨f, hf, hstrip⟩ := List.mem_filterMap.1 hg
  unfold stripFragment at hstrip
  split at hstrip
  · split at hstrip
    · cases hstrip
    · obtain rfl := Option.some.inj hstrip
      exact isUtf8_encodeChars _
  · obtain rfl := Option.some.inj hstrip
    exact h f hf

/-! ## Trees -/

namespace Tree

/-- Parts whose literals and attribute names are well-formed, with no partial called in a name. -/
def Parts.encoded : Parts where
  name := fun fs => ∀ f ∈ fs, f.mark.Encoded ∧ f.mark.isInclusion = false
  entry := fun a => isUtf8 a.1 = true ∧ ∀ f ∈ a.2, f.mark.Encoded
  text := fun fs => ∀ f ∈ fs, f.mark.Encoded

namespace Builder

theorem readAttribute_encoded
    {a : Markup.Attribute}
    (ha : a.Encoded)
    (r : Reading) (span : Span) :
    InPlace (fun _ => True) Parts.encoded.entry (readAttribute r span a) := by
  refine (Fragment.read_encoded ha.value r.isHelper (.tag span)).bind fun fs hfs => ⟨ha.key, ?_⟩
  simp only
  split
  · exact hfs
  · exact Whitespace.encoded_stripAll hfs

theorem readText_encoded
    {raw : Bytes}
    (hraw : isUtf8 raw = true)
    (r : Reading) (span : Span) :
    InPlace (fun _ => True) Parts.encoded.text (readText r raw span) := by
  unfold readText
  split
  · exact fun f hf => absurd hf List.not_mem_nil
  · refine (Fragment.read_encoded hraw r.isHelper (.text span.start)).bind fun fs hfs => ?_
    split
    · exact hfs
    · exact fun f hf => Whitespace.encoded_stripAll hfs f (Whitespace.mem_of_mem_compact hf)

theorem supplies_encoded
    {e : Markup.Event}
    (he : e.Encoded)
    (r : Reading) :
    Supplies r (fun _ => True) .encoded e := by
  cases e with
  | openTag name attributes span =>
      obtain ⟨hname, hgreater, hattributes⟩ := he
      exact ⟨Fragment.read_name_encoded hname hgreater r.isHelper span,
        fun a ha => readAttribute_encoded (hattributes a ha) r span⟩
  | text raw span =>
      exact readText_encoded he r span
  | closeTag span =>
      trivial

end Builder

/-- The parts of a well-formed source are well-formed. -/
theorem encoded_of_read
    {r : Reading} {source : Bytes} {trees : List Tree}
    (hsource : isUtf8 source = true)
    (h : read r source = .ok trees) :
    ∀ t ∈ trees, t.MadeOf .encoded := by
  have hread := ofEvents_inPlace fun e he =>
    Builder.supplies_encoded (Markup.events_encoded hsource e he) r
  rw [read] at h
  rwa [h] at hread

end Tree

/-! ## Steps -/

/-- A step that may stand in a name: neither an element nor a call of a partial. -/
def Op.isInline : Op → Bool
  | .literal _ | .interpolation _ | .block .. => true
  | .element .. | .inclusion .. | .unknown => false

/-- A step of a well-formed template. -/
def Op.Encoded : Op → Prop
  | .literal s => isUtf8 s = true
  | .element name attributes _ =>
    (∀ op ∈ Op.allSteps name, op.isInline = true) ∧ ∀ a ∈ attributes, isUtf8 a.1 = true
  | .inclusion _ _ parameters => ∀ a ∈ parameters, isUtf8 a.1 = true
  | .interpolation _ | .block .. | .unknown => True

/-- An item of a well-formed template. -/
def Item.Encoded : Item → Prop
  | .fragment f => f.mark.Encoded
  | .element name attributes children =>
    Tree.Parts.encoded.name name ∧ (∀ a ∈ attributes, Tree.Parts.encoded.entry a) ∧
      ∀ t ∈ children, t.MadeOf .encoded

theorem Item.encoded_ofForest
    {trees : List Tree}
    (h : ∀ t ∈ trees, t.MadeOf .encoded) :
    ∀ i ∈ Item.ofForest trees, i.Encoded := by
  intro i hi
  obtain ⟨t, ht, hi⟩ := List.mem_flatMap.1 hi
  cases h t ht with
  | text hfs =>
      obtain ⟨f, hf, rfl⟩ := List.mem_map.1 hi
      exact hfs f hf
  | element hname hattributes hchildren =>
      obtain rfl := List.mem_singleton.1 hi
      exact ⟨hname, hattributes, hchildren⟩

/-- The steps of a name may stand in it. -/
theorem Compiled.inline
    {names : Names} {depth : Nat} {name : List Fragment} {ops : List Op}
    (h : Compiled names depth (name.map .fragment) ops)
    (hname : ∀ f ∈ name, f.mark.isInclusion = false) :
    ∀ op ∈ Op.allSteps ops, op.isInline = true := by
  refine Compiled.steps (I := fun i => ∃ f : Fragment, i = .fragment f ∧ f.mark.isInclusion = false)
    ?_ (fun _ _ _ _ _ _ _ => rfl) ?_ ?_ h ?_
  · rintro depth span mark op ⟨f, hf, hmark⟩ hcompiled
    cases hf
    cases hcompiled with
    | literal | interpolation =>
        rfl
    | inclusion =>
        cases hmark
  · rintro depth name attributes children nameOps childOps value ⟨f, hf, _⟩
    cases hf
  · rintro name attributes children ⟨f, hf, _⟩
    cases hf
  · exact List.forall_mem_map.2 fun f hf => ⟨f, rfl, hname f hf⟩

/-- The steps of well-formed items are well-formed. -/
theorem Compiled.encoded
    {names : Names} {depth : Nat} {items : List Item} {ops : List Op}
    (h : Compiled names depth items ops)
    (hitems : ∀ i ∈ items, i.Encoded) :
    ∀ op ∈ Op.allSteps ops, op.Encoded := by
  refine Compiled.steps ?_ (fun _ _ _ _ _ _ _ => trivial) ?_ ?_ h hitems
  · intro depth span mark op hmark hcompiled
    cases hcompiled with
    | literal =>
        exact hmark
    | interpolation =>
        trivial
    | inclusion =>
        exact List.forall_mem_map.2 hmark
  · intro depth name attributes children nameOps childOps value hself hname _
    refine ⟨hname.inline fun f hf => (hself.1 f hf).2, List.forall_mem_map.2 fun a ha => ?_⟩
    exact (hself.2.1 a ha).1
  · intro name attributes children hself
    exact ⟨fun f hf => (hself.1 f hf).1, fun a ha => (hself.2.1 a ha).2,
      Item.encoded_ofForest hself.2.2⟩

/-- The steps of a template with a well-formed source are well-formed. -/
theorem encoded_of_compile
    {reading : Reading} {names : Names} {name source : Bytes} {p : Program}
    (hsource : isUtf8 source = true)
    (h : compile reading names name source = .ok p) :
    ∀ op ∈ Op.allSteps p.ops, op.Encoded := by
  obtain ⟨trees, hread, hforest⟩ := compile_eq_ok h
  have hcompiled := Compile.nodes_eq_ok_iff.1 hforest
  exact hcompiled.encoded (Item.encoded_ofForest (Tree.encoded_of_read hsource hread))

end Stencil
