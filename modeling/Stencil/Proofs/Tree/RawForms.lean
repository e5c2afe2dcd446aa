import Stencil.Proofs.Chunk.Exchange
import Stencil.Proofs.Engine.RoundTrip
import Stencil.Proofs.Fragment.Segmentation
import Stencil.Proofs.Path.Reading
import Stencil.Proofs.Text.Ampersand

/-!
# The two forms of trusted paths

A path whose value is trusted markup is written in three braces, or in two braces behind an
ampersand.  In a text both forms are read as the trusted path, whatever the path spells.  The value
of an attribute is decoded before it is cut into fragments, so there the ampersand can begin a
character reference, and then the trusted path is not what is read.

Result: `raw_forms_read_alike_unless_decoded`.
-/

namespace Stencil

/-- How a trusted path is written. -/
inductive RawForm where
  | braces
  | ampersand
deriving DecidableEq

namespace RawForm

/-- The source of a trusted path. -/
def source : RawForm → (path : Bytes) → Bytes
  | braces, p => utf8 "\x7b\x7b\x7b" ++ p ++ utf8 "\x7d\x7d\x7d"
  | ampersand, p => utf8 "\x7b\x7b&" ++ p ++ utf8 "\x7d\x7d"

/-- The expression that a trusted path is written as. -/
def form : RawForm → Form
  | braces => .triple
  | ampersand => .plain

/-- What stands between the braces. -/
def payload : RawForm → (path : Bytes) → Bytes
  | braces, p => p
  | ampersand, p => Ascii.ampersand :: p

theorem source_eq
    (f : RawForm) (p : Bytes) :
    f.source p = (Chunk.expression f.form (f.payload p)).source := by
  cases f with
  | braces =>
      rfl
  | ampersand =>
      simp [source, Chunk.source, form, payload, Form.opener, Form.closer,
        show utf8 "\x7b\x7b&" = utf8 "\x7b\x7b" ++ [Ascii.ampersand] from rfl]

end RawForm

/-! ## One expression -/

theorem Mark.readPath_eq_ok_iff
    {t : Bytes} {e : PathExpr} :
    readPath t = .ok e ↔ PathExpr.read t = .ok e := by
  rw [readPath, ofArguments, mapError_eq_ok_iff, Argument.readPath]
  cases PathExpr.read t with
  | ok e' =>
      rw [Except.ok.injEq, Except.ok.injEq]
  | error cause =>
      constructor <;> intro h <;> cases h

theorem closing?_of_not_mem
    {q : Bytes}
    (hopen : Ascii.lbrace ∉ q)
    (hclose : Ascii.rbrace ∉ q)
    (rest : Bytes) :
    closing? 0 (q ++ (Form.plain.closer ++ rest)) = some (q, rest) := by
  induction q with
  | nil =>
      rfl
  | cons b q ih =>
      obtain ⟨hb, hopen⟩ := not_or.1 (mt List.mem_cons.2 hopen)
      obtain ⟨hb', hclose⟩ := not_or.1 (mt List.mem_cons.2 hclose)
      rw [List.cons_append, closing?, ih hopen hclose]
      · rfl
      · exact fun _ heq _ => hb heq.symm
      · exact fun _ _ heq _ => hb' heq.symm
      · exact fun _ _ hdepth _ _ => absurd hdepth (Nat.succ_ne_zero _).symm

theorem clear_of_not_mem
    {q : Bytes}
    (hclose : Ascii.rbrace ∉ q)
    (rest : Bytes) :
    Bytes.Clear Form.triple.closer q rest := by
  induction q with
  | nil =>
      exact Bytes.clear_nil _ rest
  | cons b q ih =>
      obtain ⟨hb, hclose⟩ := not_or.1 (mt List.mem_cons.2 hclose)
      refine (ih hclose).cons (Bool.eq_false_iff.2 fun hstart => ?_)
      obtain ⟨more, hmore⟩ := Bytes.startsWith_iff.1 hstart
      exact hb (List.cons.inj hmore).1.symm

namespace RawForm

variable {p : Bytes} {e : PathExpr}

/-- An ampersand begins neither three braces nor a long comment. -/
theorem fits_ampersand
    (hopen : Ascii.lbrace ∉ p)
    (hclose : Ascii.rbrace ∉ p) :
    (Chunk.expression .plain (Ascii.ampersand :: p)).Fits [] := by
  have hsource : source ampersand p =
      Ascii.lbrace :: Ascii.lbrace :: Ascii.ampersand :: (p ++ (Form.plain.closer ++ [])) := by
    rw [List.append_nil]
    exact List.append_assoc _ _ _
  have hplain : formOf (source ampersand p) = .plain := by
    rw [hsource]
    rfl
  have hpayload : payload? .plain (source ampersand p) = some (Ascii.ampersand :: p, []) := by
    rw [hsource]
    exact closing?_of_not_mem (q := Ascii.ampersand :: p)
      (fun h => hopen ((List.mem_cons.1 h).resolve_left (by decide)))
      (fun h => hclose ((List.mem_cons.1 h).resolve_left (by decide))) []
  have hfits := fits_of_payload? (s := source ampersand p) (by rw [hsource]; rfl)
    (hplain.symm ▸ hpayload)
  rwa [hplain] at hfits

/-- A trusted path is one chunk. -/
theorem tiles_source
    (f : RawForm)
    (hopen : Ascii.lbrace ∉ p)
    (hclose : Ascii.rbrace ∉ p) :
    Tiles (f.source p) [.expression f.form (f.payload p)] [] := by
  have hfits : (Chunk.expression f.form (f.payload p)).Fits [] := by
    cases f with
    | braces =>
        exact clear_of_not_mem hclose _
    | ampersand =>
        exact fits_ampersand hopen hclose
  have htiles := Tiles.cons hfits .nil
  rwa [List.append_nil, ← source_eq] at htiles

/-- Neither form has references in it where it stands in a text. -/
theorem payload_of_not_mem
    (f : RawForm)
    (hp : Ascii.ampersand ∉ p)
    (site : Site) :
    site.payload (f.payload p) = f.payload p := by
  cases site with
  | tag span =>
      rfl
  | text offset =>
      cases f with
      | ampersand =>
          exact congrArg (Ascii.ampersand :: ·) (Entity.decode_of_not_mem .text hp)
      | braces =>
          have hdecode := Entity.decode_of_not_mem .text hp
          unfold Site.payload
          simp only [payload]
          split
          · next heq =>
              have hmem : Ascii.ampersand ∈ p.dropWhile Argument.isSpace :=
                heq ▸ List.mem_cons_self
              exact absurd ((List.dropWhile_sublist _).subset hmem) hp
          · exact hdecode

/-- Both forms mean the trusted path. -/
theorem ofExpression_payload
    (f : RawForm)
    (hread : PathExpr.read p = .ok e)
    (htrim : Text.trim p = p)
    (isHelper : Bytes → Bool) :
    Mark.ofExpression isHelper f.form (f.payload p) = .ok [.interpolation (.raw e)] := by
  have hpath : Mark.readPath (Text.trim p) = .ok e := by
    rw [htrim]
    exact Mark.readPath_eq_ok_iff.2 hread
  cases f with
  | braces =>
      simp only [form, payload, Mark.ofExpression, hpath]
      rfl
  | ampersand =>
      have hsign : Text.trim (Ascii.ampersand :: p) = Ascii.ampersand :: p :=
        Text.trim_cons htrim (by decide) (by decide)
      have hplain : ∀ rest, Mark.ofPlain isHelper (Ascii.ampersand :: rest) =
          Mark.readPath (Text.trim rest) >>= fun path =>
            pure [.interpolation (.raw path)] := fun _ => rfl
      simp only [form, payload, Mark.ofExpression, hsign, hplain, hpath]
      rfl

theorem no_braces_of_read
    (hread : PathExpr.read p = .ok e) :
    Ascii.lbrace ∉ p ∧ Ascii.rbrace ∉ p := by
  have hreserved := (Mark.isName_iff.1 (PathExpr.isName_of_read hread)).2
  exact ⟨fun h => hreserved _ h (by decide), fun h => hreserved _ h (by decide)⟩

/-- Besides the path, there are braces and ampersands only. -/
theorem not_mem_source
    (f : RawForm)
    (hread : PathExpr.read p = .ok e)
    {b : UInt8}
    (hreserved : b ∈ Mark.reserved)
    (hsign : b ∉ Entity.signs) :
    b ∉ f.source p := by
  have hpath : b ∉ p := fun h =>
    (Mark.isName_iff.1 (PathExpr.isName_of_read hread)).2 b h hreserved
  simp only [Entity.signs, List.mem_cons, List.not_mem_nil, or_false, not_or] at hsign
  obtain ⟨hampersand, hopen, hclose⟩ := hsign
  cases f with
  | braces =>
      simp [source, hpath, hopen, hclose,
        show utf8 "\x7b\x7b\x7b" = List.replicate 3 Ascii.lbrace from rfl,
        show utf8 "\x7d\x7d\x7d" = List.replicate 3 Ascii.rbrace from rfl]
  | ampersand =>
      simp [source, hpath, hopen, hclose, hampersand,
        show utf8 "\x7b\x7b&" = [Ascii.lbrace, Ascii.lbrace, Ascii.ampersand] from rfl,
        show utf8 "\x7d\x7d" = [Ascii.rbrace, Ascii.rbrace] from rfl]

/-- The fragment of a trusted path. -/
theorem read_source
    (f : RawForm)
    (hread : PathExpr.read p = .ok e)
    (hp : Ascii.ampersand ∉ p)
    (htrim : Text.trim p = p)
    (isHelper : Bytes → Bool) (site : Site) :
    Fragment.read isHelper site (f.source p) =
      .ok [⟨site.span 0 (f.source p).length, .interpolation (.raw e)⟩] := by
  obtain ⟨hopen, hclose⟩ := no_braces_of_read hread
  obtain ⟨hchunks, hclosed⟩ := scan_of_tiles (f.tiles_source hopen hclose)
  rw [Fragment.read, hchunks, hclosed, source_eq]
  simp only [Fragment.ofChunks, Fragment.ofChunk, f.payload_of_not_mem hp,
    f.ofExpression_payload hread htrim, Nat.zero_add]
  rfl

/-- In a text, both forms are the trusted path. -/
theorem readText_source
    (f : RawForm)
    (hread : PathExpr.read p = .ok e)
    (hp : Ascii.ampersand ∉ p)
    (htrim : Text.trim p = p)
    (r : Reading) (span : Span) :
    Tree.Builder.readText r (f.source p) span =
      .ok [⟨Span.shift ⟨0, (f.source p).length⟩ span.start, .interpolation (.raw e)⟩] := by
  have hblank : Text.isBlank (f.source p) = false := by
    obtain ⟨rest, hrest⟩ : ∃ rest, f.source p = Ascii.lbrace :: rest := by
      cases f <;> exact ⟨_, rfl⟩
    rw [hrest, Text.isBlank, glyphs_cons_of_ascii (by decide)]
    rfl
  rw [Tree.Builder.readText, hblank, Bool.and_false, if_neg Bool.false_ne_true,
    f.read_source hread hp htrim]
  cases hkeep : r.keepWhitespace <;> rfl

/-! ## Attribute values -/

/-- Braces are part of no reference, so what stands between them is decoded by itself. -/
theorem decode_source
    (f : RawForm) (p : Bytes) :
    Entity.decode .attribute (f.source p) =
      f.form.opener ++ Entity.decode .attribute (f.payload p) ++ f.form.closer := by
  have hopen : Entity.Stop Ascii.lbrace := ⟨by decide, by decide, by decide, by decide⟩
  have hclose : Entity.Stop Ascii.rbrace := ⟨by decide, by decide, by decide, by decide⟩
  have hopener : ∀ b ∈ f.form.opener, b = Ascii.lbrace := by
    cases f with
    | braces =>
        exact fun b hb => List.eq_of_mem_replicate (n := 3) hb
    | ampersand =>
        exact fun b hb => List.eq_of_mem_replicate (n := 2) hb
  have hcloser : ∀ b ∈ f.form.closer, b = Ascii.rbrace := by
    cases f with
    | braces =>
        exact fun b hb => List.eq_of_mem_replicate (n := 3) hb
    | ampersand =>
        exact fun b hb => List.eq_of_mem_replicate (n := 2) hb
  rw [source_eq, Chunk.source,
    Entity.decode_append_stops .attribute fun b hb => hcloser b hb ▸ hclose,
    Entity.decode_stops_append .attribute fun b hb => hopener b hb ▸ hopen]

end RawForm

/-! ## Where trusted paths come from -/

/-- A trusted path is read from three braces or behind an ampersand. -/
theorem Mark.exists_of_raw
    {isHelper : Bytes → Bool} {form : Form} {payload : Bytes} {e : PathExpr}
    (h : ofExpression isHelper form payload = .ok [.interpolation (.raw e)]) :
    form = .triple ∨ form = .plain ∧
      ∃ rest, Text.trim payload = Ascii.ampersand :: rest ∧
        PathExpr.read (Text.trim rest) = .ok e := by
  generalize hmarks : [Mark.interpolation (.raw e)] = marks at h
  cases reads_of_ofExpression h with
  | triple =>
      exact .inl rfl
  | trusted body read =>
      cases hmarks
      exact .inr ⟨rfl, _, body, readPath_eq_ok_iff.1 read⟩
  | path read =>
      -- Without a sign the path is not trusted.
      cases hmarks
      exact absurd rfl (PathExpr.ne_raw_of_read (readPath_eq_ok_iff.1 read) e)
  | inclusion _ read =>
      obtain ⟨name, context, parameters, rfl, -⟩ := exists_of_readPartial read
      cases hmarks
  | comment | remark | closing | opening | otherwise | call =>
      cases hmarks

theorem Segments.exists_of_raw
    {isHelper : Bytes → Bool} {site : Site} {offset : Nat} {chunks : List Chunk}
    {fs : List Fragment} {g : Fragment} {e : PathExpr}
    (h : Segments isHelper site offset chunks fs)
    (hg : g ∈ fs)
    (hmark : g.mark = .interpolation (.raw e)) :
    ∃ form payload, .expression form payload ∈ chunks ∧
      Mark.ofExpression isHelper form (site.payload payload) = .ok [.interpolation (.raw e)] := by
  induction h with
  | nil =>
      cases hg
  | cons hyields _ ih =>
      rcases List.mem_append.1 hg with hg | hg
      · cases hyields with
        | text s | tag s =>
            obtain rfl := List.mem_singleton.1 hg
            cases hmark
        | comment _ =>
            cases hg
        | call _ _ =>
            simp only [List.mem_cons, List.not_mem_nil, or_false] at hg
            rcases hg with rfl | rfl | rfl <;> cases hmark
        | single _ _ hexpression _ =>
            obtain rfl := List.mem_singleton.1 hg
            cases hmark
            exact ⟨_, _, List.mem_cons_self, hexpression⟩
      · obtain ⟨form, payload, hmem, hexpression⟩ := ih hg
        exact ⟨form, payload, List.mem_cons_of_mem _ hmem, hexpression⟩

theorem Whitespace.mem_of_mem_stripAll
    {fs : List Fragment} {g : Fragment}
    (hg : g ∈ stripAll fs)
    (hmark : g.mark.isLiteral = false) :
    g ∈ fs := by
  obtain ⟨f, hf, hstrip⟩ := List.mem_filterMap.1 hg
  unfold stripFragment at hstrip
  split at hstrip
  · split at hstrip
    · cases hstrip
    · obtain rfl := Option.some.inj hstrip
      cases hmark
  · obtain rfl := Option.some.inj hstrip
    exact hf

theorem Tiles.source_sublist
    {s rest : Bytes} {chunks : List Chunk}
    (h : Tiles s chunks rest)
    {c : Chunk}
    (hc : c ∈ chunks) :
    c.source.Sublist s := by
  rw [h.eq_append, List.flatMap_def]
  exact (List.sublist_flatten_of_mem (List.mem_map_of_mem hc)).trans (List.sublist_append_left _ _)

namespace RawForm

section Decoded

variable {p text : Bytes} {n : Nat} {e : PathExpr}
  (hreference : Entity.reference? .attribute p = some (text, n))
  (hread : PathExpr.read p = .ok e)

include hreference hread

/-- The reference does not stand for both kinds of braces. -/
theorem not_triple_of_decoded
    {payload : Bytes}
    (h : (Chunk.expression .triple payload).source.Sublist
      (Form.plain.opener ++ (text ++ p.drop n) ++ Form.plain.closer)) :
    False := by
  obtain ⟨hopen, hclose⟩ := no_braces_of_read hread
  have hmem : ∀ b, b ∉ p → (Form.plain.opener ++ Form.plain.closer).count b = 2 →
      3 ≤ (Form.triple.opener ++ Form.triple.closer).count b → b ∈ text := by
    intro b hb htwo hthree
    have hnone : (p.drop n).count b = 0 :=
      List.count_eq_zero.2 fun h => hb (List.mem_of_mem_drop h)
    have hcount := h.count_le b
    simp only [Chunk.source, List.count_append, hnone] at hcount htwo hthree
    exact List.count_pos_iff.1 (by omega)
  have hleft := (Entity.eq_singleton_of_sign hreference (b := Ascii.lbrace) (by decide)
    (hmem _ hopen (by decide) (by decide))).1
  have hright := (Entity.eq_singleton_of_sign hreference (b := Ascii.rbrace) (by decide)
    (hmem _ hclose (by decide) (by decide))).1
  rw [hleft] at hright
  cases hright

/-- Behind an ampersand that was decoded, too little is left of the path. -/
theorem not_plain_of_decoded
    (hp : Ascii.ampersand ∉ p)
    {payload rest : Bytes}
    (h : (Chunk.expression .plain payload).source.Sublist
      (Form.plain.opener ++ (text ++ p.drop n) ++ Form.plain.closer))
    (htrim : Text.trim payload = Ascii.ampersand :: rest)
    (hpath : PathExpr.read (Text.trim rest) = .ok e) :
    False := by
  have hpayload := Text.trim_sublist payload
  rw [htrim] at hpayload
  have htext : Ascii.ampersand ∈ text := by
    have hsource : Ascii.ampersand ∈ (Chunk.expression .plain payload).source :=
      List.mem_append_left _ (List.mem_append_right _ (hpayload.subset List.mem_cons_self))
    rcases List.mem_append.1 (h.subset hsource) with hfront | hback
    · rcases List.mem_append.1 hfront with hopener | hmiddle
      · exact absurd hopener (by decide)
      · exact (List.mem_append.1 hmiddle).resolve_right fun hdrop => hp (List.mem_of_mem_drop hdrop)
    · exact absurd hback (by decide)
  obtain ⟨rfl, hfirst⟩ := Entity.eq_singleton_of_sign hreference (by decide) htext
  obtain ⟨c, tail, rfl, hc⟩ := hfirst rfl
  have hdotted : e = .dotted (Bytes.splitOn Ascii.dot (c :: tail)) := by
    refine PathExpr.eq_dotted_of_read ?_ hread
    simp only [List.mem_cons, List.not_mem_nil, or_false] at hc
    rcases hc with rfl | rfl | rfl <;> decide
  subst hdotted
  -- The whole path would have to stand in what is left of it behind the reference.
  obtain ⟨front, hfront⟩ := PathExpr.exists_of_read_dotted hpath
  rw [Bytes.join_splitOn] at hfront
  have hlength := congrArg List.length hfront
  have hrest := (Text.trim_sublist rest).length_le
  have hwhole := h.length_le
  have hbody := hpayload.length_le
  have hshort := Entity.length_of_reference? hreference
  have hopener : Form.plain.opener.length = 2 := rfl
  have hcloser : Form.plain.closer.length = 2 := rfl
  simp only [Chunk.source, List.length_append, List.length_cons, List.length_nil, List.length_drop,
    hopener, hcloser] at hlength hwhole hbody hshort
  omega

/-- A decoded value is not read as the trusted path. -/
theorem ne_raw_of_decoded
    (hp : Ascii.ampersand ∉ p)
    {isHelper : Bytes → Bool} {span : Span} {fs : List Fragment}
    (h : Fragment.read isHelper (.tag span)
      (Form.plain.opener ++ (text ++ p.drop n) ++ Form.plain.closer) = .ok fs)
    {g : Fragment}
    (hg : g ∈ fs) :
    g.mark ≠ .interpolation (.raw e) := by
  intro hmark
  obtain ⟨-, hsegments⟩ := Fragment.ofChunks_eq_ok_iff.1 h
  obtain ⟨form, payload, hmem, hexpression⟩ := hsegments.exists_of_raw hg hmark
  obtain ⟨rest, htiles, -⟩ :=
    tiles_scan (Form.plain.opener ++ (text ++ p.drop n) ++ Form.plain.closer)
  have hsource := htiles.source_sublist hmem
  rcases Mark.exists_of_raw hexpression with rfl | ⟨rfl, rest, htrim, hpath⟩
  · exact not_triple_of_decoded hreference hread hsource
  · exact not_plain_of_decoded hreference hread hp hsource htrim hpath

end Decoded

theorem meaning_source
    (f : RawForm) {p : Bytes} {e : PathExpr}
    (hread : PathExpr.read p = .ok e)
    (key : Bytes) :
    Markup.Attribute.meaning ⟨key, f.source p⟩ = ⟨key.map Ascii.toLower,
      f.form.opener ++ Entity.decode .attribute (f.payload p) ++ f.form.closer⟩ := by
  have hvalue := Markup.unixNewlines_of_not_mem
    (f.not_mem_source hread (b := Ascii.carriageReturn) (by decide) (by decide))
  rw [Markup.Attribute.meaning, hvalue, decode_source]

/-- The value of an attribute is the trusted path where no reference begins at the ampersand. -/
theorem readAttribute_source
    (f : RawForm) {p : Bytes} {e : PathExpr}
    (hread : PathExpr.read p = .ok e)
    (hp : Ascii.ampersand ∉ p)
    (htrim : Text.trim p = p)
    (hnone : f = .ampersand → Entity.reference? .attribute p = none)
    (r : Reading) (span : Span) (key : Bytes) :
    Tree.Builder.readAttribute r span (Markup.Attribute.meaning ⟨key, f.source p⟩) =
      .ok (key.map Ascii.toLower, [⟨span, .interpolation (.raw e)⟩]) := by
  have hdecode : Entity.decode .attribute (f.payload p) = f.payload p := by
    cases f with
    | braces =>
        exact Entity.decode_of_not_mem .attribute hp
    | ampersand =>
        rw [payload, Entity.decode_ampersand .attribute hp, hnone rfl]
  rw [f.meaning_source hread, hdecode, ← Chunk.source, ← source_eq, Tree.Builder.readAttribute,
    f.read_source hread hp htrim]
  cases r.keepWhitespace <;> rfl

/-- Where a reference begins at the ampersand, the trusted path is not read. -/
theorem reference?_eq_none_of_readAttribute
    {p : Bytes} {e : PathExpr}
    (hread : PathExpr.read p = .ok e)
    (hp : Ascii.ampersand ∉ p)
    {r : Reading} {span : Span} {key key' : Bytes} {fs : List Fragment}
    (h : Tree.Builder.readAttribute r span (Markup.Attribute.meaning ⟨key, ampersand.source p⟩) =
      .ok (key', fs))
    {g : Fragment}
    (hg : g ∈ fs)
    (hmark : g.mark = .interpolation (.raw e)) :
    Entity.reference? .attribute p = none := by
  cases hreference : Entity.reference? .attribute p with
  | none =>
      rfl
  | some found =>
      have hdecode := Entity.decode_ampersand .attribute hp
      rw [hreference] at hdecode
      rw [ampersand.meaning_source hread] at h
      simp only [payload, form, hdecode] at h
      obtain ⟨all, hall, hkept⟩ := bind_eq_ok_iff.1 h
      have hmem : g ∈ all := by
        cases hkept
        split at hg
        · exact hg
        · exact Whitespace.mem_of_mem_stripAll hg (by rw [hmark]; rfl)
      exact absurd hmark (ne_raw_of_decoded hreference hread hp hall hmem)

end RawForm

/-! ## Elements -/

/-- A tag with a plain name that holds markup. -/
structure Markup.Container (tag : Bytes) : Prop where
  name : isPlainName tag = true
  notRaw : tag ∉ rawNames
  notVoid : tag ∉ voidNames

namespace Tree

theorem Builder.finish_nil
    (roots : List Tree) :
    finish roots [] = roots := by
  rw [finish]

theorem read_eq
    (r : Reading) (s : Bytes) :
    read r s = (Builder.readFrom r 0 Builder.empty s).map fun b =>
      Builder.finish b.roots b.stack := by
  unfold read ofEvents Builder.readFrom Markup.events
  cases List.foldlM (Builder.step r) Builder.empty _ <;> rfl

variable {tag : Bytes} (htag : Markup.Container tag) (r : Reading)

include htag

/-- The values of the attributes are read with the start tag. -/
theorem Builder.readFrom_container
    {attributes : List (Bytes × Bytes)}
    (hattributes : ∀ a ∈ attributes, Markup.isPlainName a.1 = true ∧ Ascii.quote ∉ a.2)
    {span : Span}
    (hspan : span = ⟨0, (startTag tag attributes).length⟩)
    (rest : Bytes) :
    readFrom r 0 empty (startTag tag attributes ++ rest) =
      (attributes.mapM fun a => readAttribute r span (Markup.Attribute.meaning ⟨a.1, a.2⟩)) >>=
        fun values => readFrom r (startTag tag attributes).length
          ⟨[⟨span, Fragment.ofText span tag, values, []⟩], []⟩ rest := by
  have hlower := Markup.map_toLower_of_isPlainName htag.name
  have hraw : Markup.Token.opensRaw (.startTag tag (attributes.map fun a => ⟨a.1, a.2⟩) false) =
      none := by
    simp only [Markup.Token.opensRaw, hlower, List.find?_eq_none, beq_iff_eq]
    rintro name hname rfl
    exact htag.notRaw hname
  have hvoid : Markup.voidNames.contains (tag.map Ascii.toLower) = false := by
    rw [hlower]
    simpa using htag.notVoid
  have hname : Fragment.read r.isHelper (.tag span) tag = .ok (Fragment.ofText span tag) :=
    Fragment.read_of_not_occurs r.isHelper (.tag span) (Markup.occurs_opener_of_isPlainName htag.name)
  rw [readFrom_token (Markup.readToken?_startTag htag.name hattributes rest) hraw, Nat.zero_add]
  simp only [Markup.Token.events, hvoid, Bool.or_self, Bool.false_eq_true, if_false, Nat.zero_add,
    Markup.tagName_of_isPlainName htag.name, ← hspan, List.foldlM_cons, List.foldlM_nil, step, hname,
    ok_bind, List.map_map, List.mapM_map, bind_assoc]
  rfl

/-- The end tag closes the element. -/
theorem Builder.readFrom_endTag_nil
    (e : Open) (offset : Nat) :
    readFrom r offset ⟨[e], []⟩ (endTag tag) =
      .ok ⟨[], [e.close (offset + (endTag tag).length)]⟩ := by
  have htoken := Markup.readToken?_endTag htag.name []
  have hread := readFrom_token htoken rfl r offset ⟨[e], []⟩
  rw [List.append_nil] at hread
  rw [hread]
  exact readFrom_nil r _ _

/-- An element with one attribute and no content. -/
theorem read_attribute
    {key value : Bytes}
    (hkey : Markup.isPlainName key = true)
    (hvalue : Ascii.quote ∉ value) :
    ∃ span position, read r (startTag tag [(key, value)] ++ endTag tag) =
      (Builder.readAttribute r position (Markup.Attribute.meaning ⟨key, value⟩)).map fun a =>
        [.element span (Fragment.ofText position tag) [a] []] := by
  refine ⟨⟨0, (startTag tag [(key, value)]).length + (endTag tag).length⟩,
    ⟨0, (startTag tag [(key, value)]).length⟩, ?_⟩
  have hattributes : ∀ a ∈ [(key, value)], Markup.isPlainName a.1 = true ∧ Ascii.quote ∉ a.2 := by
    rintro a ha
    obtain rfl := List.mem_singleton.1 ha
    exact ⟨hkey, hvalue⟩
  have hopen := Builder.readFrom_container htag r hattributes rfl (endTag tag)
  simp only [Builder.readFrom_endTag_nil htag r] at hopen
  rw [read_eq, hopen, List.mapM_cons, List.mapM_nil]
  cases Builder.readAttribute r ⟨0, (startTag tag [(key, value)]).length⟩
    (Markup.Attribute.meaning ⟨key, value⟩) with
  | error fault =>
      rfl
  | ok a =>
      exact congrArg Except.ok (Builder.finish_nil _)

/-- An element with a text. -/
theorem read_text
    {s : Bytes} {content : Span → List Fragment}
    (hs : s ≠ [])
    (hless : Ascii.less ∉ s)
    (hread : ∀ span, Builder.readText r s span = .ok (content span))
    (hcontent : ∀ span, content span ≠ []) :
    ∃ span position within, read r (startTag tag [] ++ s ++ endTag tag) =
      .ok [.element span (Fragment.ofText position tag) [] [.text within (content within)]] := by
  have hend : Markup.Boundary (endTag tag) := .inr rfl
  have htext := Builder.readFrom_token (Markup.readToken?_text hs hless hend) rfl r
  have hattributes : ∀ a ∈ ([] : List (Bytes × Bytes)),
      Markup.isPlainName a.1 = true ∧ Ascii.quote ∉ a.2 := nofun
  have hopen := Builder.readFrom_container htag r hattributes rfl (s ++ endTag tag)
  have hstep : ∀ (b : Builder) (span : Span),
      Builder.step r b (.text s span) = .ok (b.attach (.text span (content span))) := by
    intro b span
    have hsome : (content span).isEmpty = false := by
      simpa using hcontent span
    simp only [Builder.step, hread, ok_bind, hsome, Bool.false_eq_true, if_false]
    rfl
  refine ⟨⟨0, (startTag tag []).length + s.length + (endTag tag).length⟩,
    ⟨0, (startTag tag []).length⟩, ⟨(startTag tag []).length, (startTag tag []).length + s.length⟩,
    ?_⟩
  rw [read_eq, List.append_assoc, hopen, List.mapM_nil, pure_bind, htext]
  simp only [Markup.Token.events, List.foldlM_cons, List.foldlM_nil, hstep, ok_bind]
  rw [pure_bind]
  simp only [Builder.attach, List.nil_append, Builder.readFrom_endTag_nil htag r, Except.map,
    Builder.finish_nil, Open.close]

end Tree

/-- A path without ampersands and without white space at its ends is read as a trusted path in both
forms, in a text always, and in the value of an attribute unless it is behind an ampersand and the
two begin a character reference there. -/
theorem raw_forms_read_alike_unless_decoded
    {p : Bytes} {e : PathExpr}
    (hread : PathExpr.read p = .ok e)
    (hp : Ascii.ampersand ∉ p)
    (htrim : Text.trim p = p)
    (f : RawForm) (r : Reading) :
    (∀ span, Tree.Builder.readText r (f.source p) span =
      .ok [⟨Span.shift ⟨0, (f.source p).length⟩ span.start, .interpolation (.raw e)⟩]) ∧
    (∀ span key, Tree.Builder.readAttribute r span (Markup.Attribute.meaning ⟨key, f.source p⟩) =
        .ok (key.map Ascii.toLower, [⟨span, .interpolation (.raw e)⟩]) ↔
      (f = .ampersand → Entity.reference? .attribute p = none)) ∧
    ∀ tag key, Markup.Container tag → Markup.isPlainName key = true →
      (∃ span name within position, Tree.read r (startTag tag [] ++ f.source p ++ endTag tag) =
        .ok [.element span name [] [.text within [⟨position, .interpolation (.raw e)⟩]]]) ∧
      ((∃ span name position, Tree.read r (startTag tag [(key, f.source p)] ++ endTag tag) =
          .ok [.element span name [(key, [⟨position, .interpolation (.raw e)⟩])] []]) ↔
        (f = .ampersand → Entity.reference? .attribute p = none)) := by
  have htext := f.readText_source hread hp htrim r
  have hvalue := f.readAttribute_source hread hp htrim
  refine ⟨htext, fun span key => ⟨?_, fun hnone => hvalue hnone r span key⟩,
    fun tag key htag hkey => ⟨?_, ?_⟩⟩
  · rintro h rfl
    exact RawForm.reference?_eq_none_of_readAttribute hread hp h (List.mem_singleton_self _) rfl
  · have hne : f.source p ≠ [] := by
      cases f <;> exact List.cons_ne_nil _ _
    have hless := f.not_mem_source hread (b := Ascii.less) (by decide) (by decide)
    obtain ⟨span, position, within, htree⟩ :=
      Tree.read_text htag r hne hless htext fun _ => List.cons_ne_nil _ _
    exact ⟨span, _, within, _, htree⟩
  · have hquote := f.not_mem_source hread (b := Ascii.quote) (by decide) (by decide)
    obtain ⟨span, position, htree⟩ := Tree.read_attribute htag r hkey hquote
    rw [htree]
    constructor
    · rintro ⟨span', name, position', heq⟩ rfl
      obtain ⟨a, ha, htrees⟩ := map_eq_ok_iff.1 heq
      cases htrees
      exact RawForm.reference?_eq_none_of_readAttribute hread hp ha (List.mem_singleton_self _) rfl
    · intro hnone
      rw [hvalue hnone r position key, Markup.map_toLower_of_isPlainName hkey]
      exact ⟨span, _, position, rfl⟩

/-- A path that spells the name of a character reference is the trusted path in a text, and in an
attribute in three braces only; another path is so in both forms. -/
theorem raw_forms_of_samples :
    let r : Reading := ⟨fun _ => false, false⟩
    let trusted := fun (name : Bytes) => Mark.interpolation (.raw (.dotted [name]))
    PathExpr.read (utf8 "yen") = .ok (.dotted [utf8 "yen"]) ∧ Ascii.ampersand ∉ utf8 "yen" ∧
    Text.trim (utf8 "yen") = utf8 "yen" ∧
    (∃ span name within position,
      Tree.read r (startTag (utf8 "p") [] ++ utf8 "\x7b\x7b&yen\x7d\x7d" ++ endTag (utf8 "p")) =
        .ok [.element span name [] [.text within [⟨position, trusted (utf8 "yen")⟩]]]) ∧
    (∃ span name position, Tree.read r (startTag (utf8 "p")
        [(utf8 "title", utf8 "\x7b\x7b\x7byen\x7d\x7d\x7d")] ++ endTag (utf8 "p")) =
      .ok [.element span name [(utf8 "title", [⟨position, trusted (utf8 "yen")⟩])] []]) ∧
    (¬ ∃ span name position, Tree.read r (startTag (utf8 "p")
        [(utf8 "title", utf8 "\x7b\x7b&yen\x7d\x7d")] ++ endTag (utf8 "p")) =
      .ok [.element span name [(utf8 "title", [⟨position, trusted (utf8 "yen")⟩])] []]) ∧
    ∃ span name position, Tree.read r (startTag (utf8 "p")
        [(utf8 "title", utf8 "\x7b\x7b&key\x7d\x7d")] ++ endTag (utf8 "p")) =
      .ok [.element span name [(utf8 "title", [⟨position, trusted (utf8 "key")⟩])] []] := by
  intro r trusted
  have htag : Markup.Container (utf8 "p") := ⟨by decide, by decide, by decide⟩
  have htitle : Markup.isPlainName (utf8 "title") = true := by decide
  have hpath : PathExpr.read (utf8 "yen") = .ok (.dotted [utf8 "yen"]) := by decide +kernel
  have hsign : Ascii.ampersand ∉ utf8 "yen" := by decide
  have htrim : Text.trim (utf8 "yen") = utf8 "yen" := by decide +kernel
  have hyen := raw_forms_read_alike_unless_decoded hpath hsign htrim
  obtain ⟨htext, hampersand⟩ := (hyen .ampersand r).2.2 _ _ htag htitle
  obtain ⟨-, hbraces⟩ := (hyen .braces r).2.2 _ _ htag htitle
  have hkey := raw_forms_read_alike_unless_decoded (p := utf8 "key") (e := .dotted [utf8 "key"])
    (by decide +kernel) (by decide) (by decide +kernel) .ampersand r
  refine ⟨hpath, hsign, htrim, htext, hbraces.2 nofun, fun h => ?_,
    (hkey.2.2 _ _ htag htitle).2.2 fun _ => by decide +kernel⟩
  exact absurd (hampersand.1 h rfl) (by decide +kernel)

/-- The attributes of an element with the marks of their values. -/
def Tree.attributeMarks : Tree → List (Bytes × List Mark)
  | .element _ _ attributes _ => attributes.map fun a => (a.1, a.2.map Fragment.mark)
  | .text .. => []

/-- In an attribute, an ampersand in front of `not` is read as the sign that the two stand for, and
one in front of `amp` leaves no path. -/
theorem ampersand_decoded_in_attributes :
    let r : Reading := ⟨fun _ => false, false⟩
    let marks := fun (source : Bytes) =>
      (Tree.read r source).toOption.map fun forest => forest.map Tree.attributeMarks
    PathExpr.read (utf8 "not") = .ok (.dotted [utf8 "not"]) ∧
      marks (utf8 "<p title=\"\x7b\x7b\x7bnot\x7d\x7d\x7d\"></p>") =
        some [[(utf8 "title", [.interpolation (.raw (.dotted [utf8 "not"]))])]] ∧
      marks (utf8 "<p title=\"\x7b\x7b&not\x7d\x7d\"></p>") =
        some [[(utf8 "title", [.interpolation (.dotted [utf8 "\u00ac"])])]] ∧
      PathExpr.read (utf8 "amp") = .ok (.dotted [utf8 "amp"]) ∧
      marks (utf8 "<p title=\"\x7b\x7b&amp\x7d\x7d\"></p>") = none := by
  decide +kernel

end Stencil
