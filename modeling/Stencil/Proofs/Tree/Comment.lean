import Stencil.Proofs.Compile.Bytewise
import Stencil.Proofs.Tree.Compaction

/-!
# Leaving out a comment

A comment next to white space is left out of a text.  The literal runs on its two sides become one
run, so their literal is cut at one place less.  Beyond that something changes only at the ends of
the text: a blank literal that is dropped there is longer than before, or no longer blank.

Result: `Tree.Builder.exists_readText_without` says when the text stays the same, byte by byte.
-/

namespace Stencil

/-! ## Bytes in literals -/

namespace Mark

/-- How many bytes are in literals. -/
def literalBytes : List Mark → Nat
  | [] => 0
  | .literal s :: ms => s.length + literalBytes ms
  | _ :: ms => literalBytes ms

theorem literalBytes_cons
    (mark : Mark) (ms : List Mark) :
    literalBytes (mark :: ms) = literalBytes [mark] + literalBytes ms := by
  cases mark <;> simp [literalBytes]

theorem literalBytes_append
    (ms ns : List Mark) :
    literalBytes (ms ++ ns) = literalBytes ms + literalBytes ns := by
  induction ms with
  | nil =>
      simp [literalBytes]
  | cons mark ms ih =>
      rw [List.cons_append, literalBytes_cons, literalBytes_cons mark ms, ih]
      omega

theorem literalBytes_reverse
    (ms : List Mark) :
    literalBytes ms.reverse = literalBytes ms := by
  induction ms with
  | nil =>
      rfl
  | cons mark ms ih =>
      rw [List.reverse_cons, literalBytes_append, ih, literalBytes_cons mark ms]
      omega

theorem literalBytes_bytewise
    (mark : Mark) :
    literalBytes mark.bytewise = literalBytes [mark] := by
  cases mark with
  | literal s =>
      change literalBytes (s.map fun b => .literal [b]) = s.length
      induction s with
      | nil =>
          rfl
      | cons b s ih =>
          rw [List.map_cons, literalBytes_cons, ih, List.length_cons]
          simp only [literalBytes, List.length_singleton]
          omega
  | interpolation | opening | otherwise | closing | inclusion =>
      rfl

end Mark

namespace Fragment

open Mark

theorem bytewise_append
    (fs gs : List Fragment) :
    bytewise (fs ++ gs) = bytewise fs ++ bytewise gs := by
  rw [bytewise, List.map_append, List.flatMap_append, List.map_append]
  rfl

/-- Fragments that are spelled alike have as many bytes in literals. -/
theorem literalBytes_of_bytewise_eq
    {fs gs : List Fragment}
    (h : bytewise fs = bytewise gs) :
    literalBytes (fs.map mark) = literalBytes (gs.map mark) := by
  have hcount : ∀ fs : List Fragment,
      literalBytes ((bytewise fs).map mark) = literalBytes (fs.map mark) := by
    intro fs
    induction fs with
    | nil =>
        rfl
    | cons f fs ih =>
        rw [bytewise_cons, List.map_append, literalBytes_append, ih, map_mark_unplaced,
          literalBytes_bytewise, List.map_cons, ← literalBytes_cons]
  rw [← hcount fs, ← hcount gs, h]

end Fragment

/-! ## Literals in the middle and at the ends -/

namespace Whitespace

open Fragment Mark

/-- Fragments without their first one if it is blank. -/
def dropLead : List Fragment → List Fragment
  | [] => []
  | f :: rest => if isBlank f then rest else f :: rest

/-- Fragments without their last one if it is blank. -/
def dropTrail (fs : List Fragment) : List Fragment := (dropLead fs.reverse).reverse

theorem dropFront_around
    {front middle : List Fragment} (back : List Fragment)
    (hmiddle : middle ≠ [])
    (h : front ≠ [] ∨ middle.head?.any isBlank = false) :
    dropFront (front ++ (middle ++ back)) = dropLead front ++ (middle ++ back) := by
  obtain ⟨f, middle, rfl⟩ := List.exists_cons_of_ne_nil hmiddle
  match front with
  | [] =>
      have hf : isBlank f = false := by simpa using h
      change dropFront (f :: (middle ++ back)) = f :: (middle ++ back)
      cases middle ++ back with
      | nil =>
          rfl
      | cons g rest =>
          rw [dropFront, if_neg (Bool.eq_false_iff.1 hf)]
  | [e] =>
      change (if isBlank e then f :: (middle ++ back) else e :: f :: (middle ++ back)) =
        (if isBlank e then [] else [e]) ++ (f :: middle ++ back)
      split <;> rfl
  | e :: g :: front =>
      change (if isBlank e then g :: (front ++ (f :: middle ++ back))
          else e :: g :: (front ++ (f :: middle ++ back))) =
        (if isBlank e then g :: front else e :: g :: front) ++ (f :: middle ++ back)
      split <;> rfl

theorem dropBack_around
    (front : List Fragment) {middle : List Fragment} {back : List Fragment}
    (hmiddle : middle ≠ [])
    (h : back ≠ [] ∨ middle.getLast?.any isBlank = false) :
    dropBack (front ++ (middle ++ back)) = front ++ (middle ++ dropTrail back) := by
  have hreverse : (front ++ (middle ++ back)).reverse =
      back.reverse ++ (middle.reverse ++ front.reverse) := by
    simp only [List.reverse_append, List.append_assoc]
  have hend : back.reverse ≠ [] ∨ middle.reverse.head?.any isBlank = false := by
    rw [List.head?_reverse]
    exact h.imp_left fun hback hnil => hback (List.reverse_eq_nil_iff.1 hnil)
  rw [dropBack, hreverse,
    dropFront_around front.reverse (fun hnil => hmiddle (List.reverse_eq_nil_iff.1 hnil)) hend]
  simp only [dropTrail, List.reverse_append, List.reverse_reverse, List.append_assoc]

/-- What stands around literals in the middle does not depend on them. -/
theorem dropBack_dropFront_around
    {front middle back : List Fragment}
    (hmiddle : middle ≠ [])
    (hfront : front ≠ [] ∨ middle.head?.any isBlank = false)
    (hback : back ≠ [] ∨ middle.getLast?.any isBlank = false) :
    dropBack (dropFront (front ++ (middle ++ back))) =
      dropLead front ++ (middle ++ dropTrail back) := by
  rw [dropFront_around back hmiddle hfront, dropBack_around _ hmiddle hback]

/-- Fragments of which one is not blank keep the others at the back. -/
theorem dropBack_of_solid
    {fs : List Fragment}
    (h : ∃ f ∈ fs, isBlank f = false) :
    dropBack fs = dropTrail fs := by
  obtain ⟨f, hf, hblank⟩ := h
  have hmem := List.mem_reverse.2 hf
  unfold dropBack dropTrail
  generalize fs.reverse = gs at hmem
  match gs with
  | [] =>
      rfl
  | [g] =>
      rw [List.mem_singleton.1 hmem] at hblank
      rw [dropLead, if_neg (Bool.eq_false_iff.1 hblank)]
      rfl
  | g :: g' :: rest =>
      rfl

section Joined

variable {f f' g : Fragment}

/-- Two literals and the literal that they are cut from. -/
structure Halves (f f' g : Fragment) : Prop where
  bytes : literalBytes [g.mark] = literalBytes [f.mark] + literalBytes [f'.mark]
  left : 0 < literalBytes [f.mark]
  right : 0 < literalBytes [f'.mark]
  blank : isBlank g = (isBlank f && isBlank f')

theorem Halves.symm
    (h : Halves f f' g) :
    Halves f' f g :=
  ⟨by rw [h.bytes, Nat.add_comm], h.right, h.left, by rw [h.blank, Bool.and_comm]⟩

/-- A blank half at the front is dropped alone, or not at all. -/
theorem Halves.literalBytes_ne
    (h : Halves f f' g)
    (hblank : isBlank f = true)
    {back : List Fragment}
    (hsolid : ∃ e ∈ back, isBlank e = false) :
    literalBytes ((dropBack (dropFront (f :: f' :: back))).map mark) ≠
      literalBytes ((dropBack (dropFront (g :: back))).map mark) := by
  have hne : back ≠ [] := by
    rintro rfl
    obtain ⟨e, he, -⟩ := hsolid
    cases he
  have hcut : dropBack (dropFront (f :: f' :: back)) = f' :: dropTrail back := by
    have hback : dropBack ([] ++ ([f'] ++ back)) = [] ++ ([f'] ++ dropTrail back) :=
      dropBack_around [] (List.cons_ne_nil f' []) (.inl hne)
    rw [dropFront, if_pos hblank]
    exact hback
  have hleft := h.left
  have hright := h.right
  rw [hcut, List.map_cons, literalBytes_cons]
  cases hblank' : isBlank f' with
  | false =>
      have hg : isBlank g = false := by rw [h.blank, hblank', Bool.and_false]
      have hkept : dropBack (dropFront ([] ++ ([g] ++ back))) =
          dropLead [] ++ ([g] ++ dropTrail back) :=
        dropBack_dropFront_around (List.cons_ne_nil g []) (.inr (by simpa using hg)) (.inl hne)
      change literalBytes [f'.mark] + literalBytes ((dropTrail back).map mark) ≠
        literalBytes ((dropBack (dropFront ([] ++ ([g] ++ back)))).map mark)
      rw [hkept]
      change _ ≠ literalBytes (g.mark :: (dropTrail back).map mark)
      rw [literalBytes_cons g.mark, h.bytes]
      omega
  | true =>
      have hg : isBlank g = true := by rw [h.blank, hblank, hblank', Bool.and_true]
      have hdropped : dropFront (g :: back) = back := by
        obtain ⟨e, rest, rfl⟩ := List.exists_cons_of_ne_nil hne
        rw [dropFront, if_pos hg]
      rw [hdropped, dropBack_of_solid hsolid]
      omega

end Joined

/-- A literal without a span, unless it is empty. -/
def seen (u : Bytes) : List Fragment := if u.isEmpty then [] else [unplaced (.literal u)]

theorem seen_of_ne_nil
    {u : Bytes}
    (hu : u ≠ []) :
    seen u = [unplaced (.literal u)] :=
  if_neg fun hempty => hu (List.isEmpty_iff.1 hempty)

section Seen

variable {u v : Bytes} {front back : List Fragment}
variable (hblank : Text.isBlank (u ++ v) = (Text.isBlank u && Text.isBlank v))

include hblank

theorem halves_seen
    (hu : u ≠ [])
    (hv : v ≠ []) :
    Halves (unplaced (.literal u)) (unplaced (.literal v)) (unplaced (.literal (u ++ v))) where
  bytes := List.length_append
  left := List.length_pos_iff.2 hu
  right := List.length_pos_iff.2 hv
  blank := hblank

/-- Two literals may be joined in the middle, or when they are not blank where they end the text. -/
theorem bytewise_seen
    (h : u = [] ∨ v = [] ∨ ((front ≠ [] ∨ Text.isBlank u = false) ∧
      (back ≠ [] ∨ Text.isBlank v = false))) :
    bytewise (dropBack (dropFront (front ++ ((seen u ++ seen v) ++ back)))) =
      bytewise (dropBack (dropFront (front ++ (seen (u ++ v) ++ back)))) := by
  by_cases hu : u = []
  · subst hu
    rfl
  by_cases hv : v = []
  · subst hv
    have hnil : seen [] = [] := rfl
    rw [hnil, List.append_nil, List.append_nil]
  obtain ⟨hfront, hback⟩ := (h.resolve_left hu).resolve_left hv
  have hjoined : u ++ v ≠ [] := List.append_ne_nil_of_left_ne_nil hu v
  have hleft : Text.isBlank u = false → Text.isBlank (u ++ v) = false := by
    intro hsolid
    rw [hblank, hsolid, Bool.false_and]
  have hright : Text.isBlank v = false → Text.isBlank (u ++ v) = false := by
    intro hsolid
    rw [hblank, hsolid, Bool.and_false]
  rw [seen_of_ne_nil hu, seen_of_ne_nil hv, seen_of_ne_nil hjoined]
  have hcut : dropBack (dropFront (front ++ (([unplaced (.literal u)] ++ [unplaced (.literal v)]) ++
        back))) =
      dropLead front ++ (([unplaced (.literal u)] ++ [unplaced (.literal v)]) ++ dropTrail back) :=
    dropBack_dropFront_around (List.cons_ne_nil _ _) hfront hback
  have hwhole : dropBack (dropFront (front ++ ([unplaced (.literal (u ++ v))] ++ back))) =
      dropLead front ++ ([unplaced (.literal (u ++ v))] ++ dropTrail back) :=
    dropBack_dropFront_around (List.cons_ne_nil _ _) (hfront.imp_right hleft)
      (hback.imp_right hright)
  have hspelled : bytewise ([unplaced (.literal u)] ++ [unplaced (.literal v)]) =
      bytewise [unplaced (.literal (u ++ v))] := by
    simp [Fragment.bytewise, unplaced, Mark.bytewise]
  rw [hcut, hwhole]
  simp only [bytewise_append _ (dropTrail back), bytewise_append (dropLead front)]
  rw [hspelled]

/-- Otherwise joining them changes what is dropped, as long as something else is there. -/
theorem undisturbed_of_bytewise_seen
    (hsolid : ∃ f ∈ front ++ back, isBlank f = false)
    (h : bytewise (dropBack (dropFront (front ++ ((seen u ++ seen v) ++ back)))) =
      bytewise (dropBack (dropFront (front ++ (seen (u ++ v) ++ back))))) :
    u = [] ∨ v = [] ∨ ((front ≠ [] ∨ Text.isBlank u = false) ∧
      (back ≠ [] ∨ Text.isBlank v = false)) := by
  by_cases hu : u = []
  · exact .inl hu
  by_cases hv : v = []
  · exact .inr (.inl hv)
  have hjoined : u ++ v ≠ [] := List.append_ne_nil_of_left_ne_nil hu v
  have hhalves := halves_seen hblank hu hv
  rw [seen_of_ne_nil hu, seen_of_ne_nil hv, seen_of_ne_nil hjoined] at h
  have hbytes := literalBytes_of_bytewise_eq h
  refine .inr (.inr ⟨?_, ?_⟩)
  · by_contra hends
    rw [not_or, not_ne_iff, Bool.not_eq_false] at hends
    obtain ⟨rfl, hspace⟩ := hends
    exact hhalves.literalBytes_ne hspace hsolid hbytes
  · by_contra hends
    rw [not_or, not_ne_iff, Bool.not_eq_false] at hends
    obtain ⟨rfl, hspace⟩ := hends
    -- Read from the back, this is the same as at the front.
    rw [List.append_nil] at hsolid
    have hreverse : ∀ middle : List Fragment,
        literalBytes ((dropBack (dropFront (front ++ (middle ++ [])))).map mark) =
          literalBytes ((dropBack (dropFront (middle.reverse ++ front.reverse))).map mark) := by
      intro middle
      have hmem : ∃ f ∈ front ++ middle, isBlank f = false := by
        obtain ⟨f, hf, hsolid⟩ := hsolid
        exact ⟨f, List.mem_append_left _ hf, hsolid⟩
      rw [List.append_nil, ← List.reverse_append, ← reverse_dropBack_dropFront hmem,
        List.map_reverse, literalBytes_reverse]
    rw [hreverse, hreverse] at hbytes
    have hback : ∃ f ∈ front.reverse, isBlank f = false := by
      obtain ⟨f, hf, hsolid⟩ := hsolid
      exact ⟨f, List.mem_reverse.2 hf, hsolid⟩
    exact hhalves.symm.literalBytes_ne hspace hback hbytes

end Seen
end Whitespace

/-! ## Chunks around a comment -/

/-- No two opening braces arise where a text is cut next to white space. -/
theorem clear_opener_append
    {s t rest rest' : Bytes}
    (hs : s ≠ [] → Bytes.Clear Form.plain.opener s rest')
    (ht : t ≠ [] → Bytes.Clear Form.plain.opener t rest)
    (hwhite : Whitespace.WhiteAt s t) :
    Bytes.Clear Form.plain.opener (s ++ t) rest := by
  have hopener : Form.plain.opener = [Ascii.lbrace, Ascii.lbrace] := rfl
  have hbrace : Ascii.isWhite Ascii.lbrace = false := rfl
  rw [hopener] at hs ht ⊢
  intro l r heq
  refine Nat.le_of_not_lt fun hlt => ?_
  rw [List.append_assoc] at heq
  rw [List.length_append] at hlt
  rcases List.append_eq_append_iff.1 heq with ⟨l', rfl, htail⟩ | ⟨s', rfl, htail⟩
  · -- They begin in the second part.
    rw [List.length_append] at hlt
    have hne : t ≠ [] := by
      rintro rfl
      simp only [List.length_nil] at hlt
      omega
    have hle := ht hne l' r htail
    omega
  · -- They begin in the first part.
    match s' with
    | [] =>
        rw [List.append_nil] at hlt hs
        have hne : t ≠ [] := by
          rintro rfl
          simp only [List.length_nil] at hlt
          omega
        have hle := ht hne [] r htail.symm
        have hpos := List.length_pos_iff.2 hne
        simp only [List.length_nil] at hle
        omega
    | [b] =>
        -- They would stand on both sides of the cut, but one side is white.
        obtain ⟨rfl, hrest⟩ := List.cons.inj htail
        rcases hwhite with ⟨front, b, hfront, hb⟩ | ⟨b, back, rfl, hb⟩
        · have hlast := List.append_inj_right' hfront rfl
          rw [← (List.cons.inj hlast).1, hbrace] at hb
          cases hb
        · rw [← (List.cons.inj hrest).1, hbrace] at hb
          cases hb
    | b :: b' :: s'' =>
        obtain ⟨rfl, hrest⟩ := List.cons.inj htail
        obtain ⟨rfl, -⟩ := List.cons.inj hrest
        have hle := hs (List.append_ne_nil_of_right_ne_nil l (List.cons_ne_nil _ _)) l (s'' ++ rest')
          (by simp)
        rw [List.length_append, List.length_cons] at hle
        omega

namespace Chunk

/-- A literal run, unless it is empty. -/
def run (s : Bytes) : List Chunk := if s.isEmpty then [] else [.literal s]

/-- A comment between two literal runs, of which one is white where the comment stands.  A run may be
empty. -/
structure Beside (front : List Chunk) (s : Bytes) (c : Chunk) (t : Bytes) (back : List Chunk) :
    Prop where
  comment : c.isComment = true
  white : Whitespace.WhiteAt s t
  front : ∀ u, front.getLast? ≠ some (.literal u)
  back : ∀ u, back.head? ≠ some (.literal u)

/-- Whether no blank literal at an end of the text is made longer, or no longer blank, when the two
runs around a comment are joined. -/
def Undisturbed (front : List Chunk) (s t : Bytes) (back : List Chunk) : Prop :=
  shown s = [] ∨ shown t = [] ∨
    ((visible front ≠ [] ∨ Text.isBlank (shown s) = false) ∧
      (visible back ≠ [] ∨ Text.isBlank (shown t) = false))

instance (front : List Chunk) (s t : Bytes) (back : List Chunk) :
    Decidable (Undisturbed front s t back) :=
  inferInstanceAs (Decidable (_ ∨ _ ∨ _))

section Beside

variable {front back : List Chunk} {s t : Bytes} {c : Chunk}

/-- The chunks of the text without the comment. -/
theorem Beside.tiles_without
    (h : Beside front s c t back)
    {raw : Bytes}
    (htiles : Tiles raw (front ++ (run s ++ (c :: (run t ++ back)))) []) :
    Tiles (front.flatMap source ++ (s ++ t ++ back.flatMap source))
      (front ++ (run (s ++ t) ++ back)) [] := by
  obtain ⟨more₁, hfront, htiles⟩ := tiles_append_iff.1 htiles
  obtain ⟨more₂, hs, htiles⟩ := tiles_append_iff.1 htiles
  cases htiles with
  | @cons _ more₃ _ _ _ htiles =>
      obtain ⟨more₄, ht, hback⟩ := tiles_append_iff.1 htiles
      have hmore : more₄ = back.flatMap source := by rw [hback.eq_append, List.append_nil]
      have hrun : ∀ {u more more' : Bytes}, Tiles more (run u) more' → u ≠ [] →
          Bytes.Clear Form.plain.opener u more' := by
        intro u more more' hu hne
        rw [run, if_neg (fun hempty => hne (List.isEmpty_iff.1 hempty))] at hu
        cases hu with
        | cons hfits hnil =>
            cases hnil
            exact hfits.2.1
      have hend : more₄ = [] ∨ Bytes.startsWith Form.plain.opener more₄ = true := by
        cases hback with
        | nil =>
            exact .inl rfl
        | @cons d more _ _ _ _ =>
            cases d with
            | literal u =>
                exact absurd rfl (h.back u)
            | expression form payload =>
                exact .inr (startsWith_plain_source form payload more)
      have hne : s ++ t ≠ [] := by
        rcases h.white with ⟨_, _, rfl, -⟩ | ⟨_, _, rfl, -⟩ <;> simp
      have hclear := clear_opener_append (hrun hs) (hrun ht) h.white
      have hfits : (literal (s ++ t)).Fits more₄ := ⟨hne, hclear, hend⟩
      have hjoined : Tiles (s ++ t ++ more₄) (run (s ++ t) ++ back) [] := by
        rw [run, if_neg (fun hempty => hne (List.isEmpty_iff.1 hempty))]
        exact .cons hfits hback
      rw [← hmore]
      exact tiles_append_iff.2 ⟨_, hfront.exchange h.front _, hjoined⟩

/-- A text that is blank without the comment consists of the two runs. -/
theorem Beside.eq_nil_of_isBlank
    (h : Beside front s c t back)
    (hblank : Text.isBlank ((front ++ (run (s ++ t) ++ back)).flatMap source) = true) :
    front = [] ∧ back = [] := by
  have hliteral := isLiteral_of_isBlank hblank
  constructor
  · by_contra hne
    obtain ⟨init, d, rfl⟩ := (List.eq_nil_or_concat' front).resolve_left hne
    cases d with
    | literal u =>
        exact h.front u List.getLast?_concat
    | expression form payload =>
        cases hliteral (.expression form payload) (by simp)
  · by_contra hne
    obtain ⟨d, rest, rfl⟩ := List.exists_cons_of_ne_nil hne
    cases d with
    | literal u =>
        exact h.back u rfl
    | expression form payload =>
        cases hliteral (.expression form payload) (by simp)

end Beside

end Chunk

/-! ## Segments around a comment -/

section Segments

open Whitespace

variable {isHelper : Bytes → Bool} {site : Site} {offset : Nat}

theorem segments_append_iff
    {front back : List Chunk} {fs : List Fragment} :
    Segments isHelper site offset (front ++ back) fs ↔
      ∃ gs hs, Segments isHelper site offset front gs ∧
        Segments isHelper site (offset + (front.flatMap Chunk.source).length) back hs ∧
        fs = gs ++ hs := by
  induction front generalizing offset fs with
  | nil =>
      constructor
      · intro h
        exact ⟨[], fs, .nil, h, rfl⟩
      · rintro ⟨gs, hs, hfront, hback, rfl⟩
        cases hfront
        exact hback
  | cons c front ih =>
      have hlength : offset + ((c :: front).flatMap Chunk.source).length =
          offset + c.source.length + (front.flatMap Chunk.source).length := by
        rw [List.flatMap_cons, List.length_append, Nat.add_assoc]
      rw [hlength]
      constructor
      · intro h
        cases h with
        | cons hyields hrest =>
            obtain ⟨gs, hs, hfront, hback, rfl⟩ := ih.1 hrest
            exact ⟨_, hs, .cons hyields hfront, hback, (List.append_assoc _ _ _).symm⟩
      · rintro ⟨gs, hs, hfront, hback, rfl⟩
        cases hfront with
        | cons hyields hrest =>
            rw [List.append_assoc]
            exact .cons hyields (ih.2 ⟨_, hs, hrest, hback, rfl⟩)

/-- The chunks of a text have the same marks wherever they stand. -/
theorem Segments.relocate
    {start : Nat} {chunks : List Chunk} {fs : List Fragment}
    (h : Segments isHelper (.text start) offset chunks fs)
    (start' offset' : Nat) :
    ∃ gs, Segments isHelper (.text start') offset' chunks gs ∧
      gs.map Fragment.mark = fs.map Fragment.mark := by
  have hread : Fragment.ofChunks isHelper (.text start) 0 none offset chunks = .ok fs :=
    Fragment.ofChunks_eq_ok_iff.2 ⟨rfl, h⟩
  have hmarks : (Fragment.ofChunks isHelper (.text start) 0 none offset chunks).toOption.map
        (List.map Fragment.mark) =
      (Fragment.ofChunks isHelper (.text start') 0 none offset' chunks).toOption.map
        (List.map Fragment.mark) := by
    refine Fragment.map_mark_ofChunks ?_ ?_ chunks none 0 0 offset offset' <;> rfl
  rw [hread] at hmarks
  cases hother : Fragment.ofChunks isHelper (.text start') 0 none offset' chunks with
  | error fault =>
      rw [hother] at hmarks
      cases hmarks
  | ok gs =>
      rw [hother] at hmarks
      exact ⟨gs, (Fragment.ofChunks_eq_ok_iff.1 hother).2, (Option.some.inj hmarks).symm⟩

/-- What is seen of a literal run. -/
theorem stripAll_run
    {start : Nat} {s : Bytes} {fs : List Fragment}
    (h : Segments isHelper (.text start) offset (Chunk.run s) fs) :
    stripAll (fs.map bare) = seen (Chunk.shown s) := by
  unfold Chunk.run at h
  split at h
  · next hempty =>
      cases h
      rw [List.isEmpty_iff.1 hempty]
      rfl
  · cases h with
    | cons hyields hnil =>
        cases hnil
        cases hyields with
        | text s =>
            exact Chunk.stripAll_literal ⟨0, 0⟩ s

theorem exists_segments_run
    (start : Nat) (s : Bytes) :
    ∃ fs, Segments isHelper (.text start) offset (Chunk.run s) fs := by
  unfold Chunk.run
  split
  · exact ⟨[], .nil⟩
  · exact ⟨_, .cons (.text s) .nil⟩

theorem stripAll_append
    (fs gs : List Fragment) :
    stripAll ((fs ++ gs).map bare) = stripAll (fs.map bare) ++ stripAll (gs.map bare) := by
  rw [List.map_append]
  exact List.filterMap_append

/-- Nothing is seen of a comment. -/
theorem stripAll_comment
    {start : Nat} {span : Span} {c : Chunk} {fs : List Fragment}
    (hcomment : c.isComment = true)
    (h : c.Yields isHelper (.text start) span fs) :
    stripAll (fs.map bare) = [] := by
  have hvanishes : c.vanishes = true := by
    cases c with
    | literal s =>
        cases hcomment
    | expression form payload =>
        exact hcomment
  obtain ⟨-, hnil⟩ | ⟨hvisible, -⟩ := h.stripAll
  · rw [stripAll_bare, hnil]
    rfl
  · rw [hvanishes] at hvisible
    cases hvisible

/-- Chunks that leave something. -/
theorem stripAll_ne_nil_iff
    {start : Nat} {chunks : List Chunk} {fs : List Fragment}
    (h : Segments isHelper (.text start) offset chunks fs) :
    stripAll (fs.map bare) ≠ [] ↔ Chunk.visible chunks ≠ [] := by
  rw [stripAll_bare, ne_eq, List.map_eq_nil_iff, Chunk.stripAll_eq_nil_iff h, ne_eq, Chunk.visible,
    List.filter_eq_nil_iff]
  simp only [Bool.not_eq_true', Bool.not_eq_false]

variable {start : Nat} {front back : List Chunk} {s t : Bytes} {c : Chunk}

/-- What is seen of a text with a comment, and of the text without it. -/
theorem exists_segments_without
    (h : Chunk.Beside front s c t back)
    {fs : List Fragment}
    (hsegments : Segments isHelper (.text start) 0
      (front ++ (Chunk.run s ++ (c :: (Chunk.run t ++ back)))) fs)
    (start' : Nat) :
    ∃ gs before after,
      Segments isHelper (.text start') 0 (front ++ (Chunk.run (s ++ t) ++ back)) gs ∧
      (before ≠ [] ↔ Chunk.visible front ≠ []) ∧ (after ≠ [] ↔ Chunk.visible back ≠ []) ∧
      stripAll (fs.map bare) =
        before ++ ((seen (Chunk.shown s) ++ seen (Chunk.shown t)) ++ after) ∧
      stripAll (gs.map bare) = before ++ (seen (Chunk.shown s ++ Chunk.shown t) ++ after) := by
  obtain ⟨fs₁, _, hfront, hbehind, rfl⟩ := segments_append_iff.1 hsegments
  obtain ⟨fs₂, _, hs, hcommented, rfl⟩ := segments_append_iff.1 hbehind
  cases hcommented with
  | cons hcomment hrest =>
      obtain ⟨fs₃, fs₄, ht, hback, rfl⟩ := segments_append_iff.1 hrest
      obtain ⟨gs₁, hfront', hmarks₁⟩ := hfront.relocate start' 0
      obtain ⟨gs₂, hjoined⟩ := exists_segments_run start' (s ++ t)
      obtain ⟨gs₃, hback', hmarks₃⟩ := hback.relocate start' _
      have hshown : Chunk.shown (s ++ t) = Chunk.shown s ++ Chunk.shown t :=
        strip_decode_append h.white
      refine ⟨gs₁ ++ (gs₂ ++ gs₃), stripAll (fs₁.map bare), stripAll (fs₄.map bare), ?_,
        stripAll_ne_nil_iff hfront, stripAll_ne_nil_iff hback, ?_, ?_⟩
      · exact segments_append_iff.2 ⟨_, _, hfront',
          segments_append_iff.2 ⟨_, _, hjoined, hback', rfl⟩, rfl⟩
      · simp only [stripAll_append, stripAll_run hs, stripAll_comment h.comment hcomment,
          stripAll_run ht, List.nil_append, List.append_assoc]
      · rw [stripAll_append, stripAll_append, stripAll_run hjoined, hshown, map_bare gs₁, hmarks₁,
          ← map_bare, map_bare gs₃, hmarks₃, ← map_bare]

end Segments

/-- A text is read when its chunks are. -/
theorem Fragment.read_of_tiles
    {isHelper : Bytes → Bool} {site : Site} {raw : Bytes} {chunks : List Chunk} {fs : List Fragment}
    (htiles : Tiles raw chunks [])
    (hsegments : Segments isHelper site 0 chunks fs) :
    Fragment.read isHelper site raw = .ok fs := by
  obtain ⟨hchunks, hclosed⟩ := scan_of_tiles htiles
  rw [Fragment.read, hchunks]
  exact Fragment.ofChunks_eq_ok_iff.2 ⟨hclosed, hsegments⟩

/-! ## Texts without a comment -/

namespace Tree.Builder

open Whitespace

/-- The spelling of a compacted text, from its fragments without their places. -/
theorem bytewise_compact
    (fs : List Fragment) :
    Fragment.bytewise (compact fs) =
      Fragment.bytewise (dropBack (dropFront (stripAll (fs.map bare)))) := by
  have hbare : ∀ gs : List Fragment, Fragment.bytewise (gs.map bare) = Fragment.bytewise gs := by
    intro gs
    rw [Fragment.bytewise, map_bare, Fragment.map_mark_unplaced]
    rfl
  rw [← hbare, ← compact_bare]
  rfl

/-- What is no literal stands in front of or behind the two runs. -/
theorem exists_solid
    {fs before after : List Fragment} {u v : Bytes}
    (hseen : stripAll (fs.map bare) = before ++ ((seen u ++ seen v) ++ after))
    (h : ∃ f ∈ compact fs, f.mark.isLiteral = false) :
    ∃ f ∈ before ++ after, isBlank f = false := by
  obtain ⟨f, hf, hmark⟩ := h
  have hmem : bare f ∈ before ++ ((seen u ++ seen v) ++ after) := by
    rw [← hseen, stripAll_bare]
    exact List.mem_map_of_mem (mem_of_mem_compact hf)
  have hliteral : ∀ w, bare f ∉ seen w := by
    intro w hw
    unfold seen at hw
    split at hw
    · cases hw
    · have hsame : f.mark = .literal w := congrArg Fragment.mark (List.mem_singleton.1 hw)
      rw [hsame] at hmark
      cases hmark
  simp only [List.mem_append, hliteral, false_or, or_false] at hmem
  exact ⟨bare f, List.mem_append.2 hmem, isBlank_eq_false hmark⟩

section Without

variable {r : Reading} (hr : r.keepWhitespace = false)
variable {raw : Bytes} {span : Span} {attached : List Fragment}
variable (hread : readText r raw span = .ok attached)
variable {front back : List Chunk} {s t : Bytes} {c : Chunk}
variable (htiles : Tiles raw (front ++ (Chunk.run s ++ (c :: (Chunk.run t ++ back)))) [])
variable (h : Chunk.Beside front s c t back)

include hr hread htiles h

/-- A text without a comment next to white space is read as well.  It is spelled as with the comment
unless a blank literal at an end of the text is disturbed. -/
theorem exists_readText_without
    (span' : Span) :
    ∃ attached',
      readText r (front.flatMap Chunk.source ++ (s ++ t ++ back.flatMap Chunk.source)) span' =
        .ok attached' ∧
      (Text.isBlank (front.flatMap Chunk.source ++ (s ++ t ++ back.flatMap Chunk.source)) = false →
        Chunk.Undisturbed front s t back →
          Fragment.bytewise attached = Fragment.bytewise attached') ∧
      ((∃ f ∈ attached, f.mark.isLiteral = false) →
        (Fragment.bytewise attached = Fragment.bytewise attached' ↔
          Chunk.Undisturbed front s t back)) := by
  have htiles' := h.tiles_without htiles
  obtain ⟨hblank, -⟩ | ⟨-, fs, hsegments, rfl⟩ := cases_of_readText hr hread htiles
  · -- With the comment the text is not blank.
    rw [htiles.eq_append, List.append_nil] at hblank
    have hliteral := Chunk.isLiteral_of_isBlank hblank c (by simp)
    have hcomment := h.comment
    cases c with
    | literal u =>
        cases hcomment
    | expression form payload =>
        cases hliteral
  obtain ⟨gs, before, after, hsegments', hbefore, hafter, hwith, hwithout⟩ :=
    exists_segments_without h hsegments span'.start
  have hundisturbed : Chunk.Undisturbed front s t back ↔
      Chunk.shown s = [] ∨ Chunk.shown t = [] ∨
        ((before ≠ [] ∨ Text.isBlank (Chunk.shown s) = false) ∧
          (after ≠ [] ∨ Text.isBlank (Chunk.shown t) = false)) := by
    rw [hbefore, hafter]
    exact Iff.rfl
  have hjoined := isBlank_strip_append (Entity.decode .text s) (Entity.decode .text t)
  generalize front.flatMap Chunk.source ++ (s ++ t ++ back.flatMap Chunk.source) = raw' at htiles' ⊢
  cases hblank : Text.isBlank raw' with
  | true =>
      refine ⟨[], by rw [readText, hr, hblank]; rfl, (nomatch ·), fun hsolid => ?_⟩
      -- Nothing is there besides the two runs and the comment.
      rw [htiles'.eq_append, List.append_nil] at hblank
      obtain ⟨rfl, rfl⟩ := h.eq_nil_of_isBlank hblank
      obtain ⟨f, hf, -⟩ := exists_solid hwith hsolid
      have hbefore' : before = [] := not_not.1 fun hne => hbefore.1 hne rfl
      have hafter' : after = [] := not_not.1 fun hne => hafter.1 hne rfl
      rw [hbefore', hafter'] at hf
      cases hf
  | false =>
      have hspelled : Fragment.bytewise (compact fs) = Fragment.bytewise (compact gs) ↔
          Fragment.bytewise (dropBack (dropFront (before ++
            ((seen (Chunk.shown s) ++ seen (Chunk.shown t)) ++ after)))) =
          Fragment.bytewise (dropBack (dropFront (before ++
            (seen (Chunk.shown s ++ Chunk.shown t) ++ after)))) := by
        rw [bytewise_compact, bytewise_compact, hwith, hwithout]
      refine ⟨compact gs, ?_, fun _ hsame => ?_, fun hsolid => ⟨fun hsame => ?_, fun hsame => ?_⟩⟩
      · rw [readText, hr, hblank, Bool.and_false, if_neg Bool.false_ne_true,
          Fragment.read_of_tiles htiles' hsegments']
        rfl
      · exact hspelled.2 (bytewise_seen hjoined (hundisturbed.1 hsame))
      · exact hundisturbed.2 (undisturbed_of_bytewise_seen hjoined (exists_solid hwith hsolid)
          (hspelled.1 hsame))
      · exact hspelled.2 (bytewise_seen hjoined (hundisturbed.1 hsame))

end Without

end Tree.Builder

end Stencil
