import Mathlib.Data.List.Chain
import Mathlib.Data.List.Forall2
import Stencil.Proofs.Chunk.Exchange
import Stencil.Proofs.Compile.Thinning
import Stencil.Proofs.Fragment.Segmentation
import Stencil.Proofs.Text.White

/-!
# The ends of compacted texts

In the default mode a text is read as fragments, literals lose their line breaks and tabs and go
when nothing is left, and then one blank literal is dropped at either end.  A comment leaves no
fragment, so the literals on its two sides stand next to each other, and more than one blank literal
may stand at an end.

The chunks of the text tell what happens: those that vanish are skipped, and the blank literals
among the others are counted from either end.

Results: `Tree.Builder.isBlank_ends_iff` says when an end is blank, `Chunk.blanksAhead_le_one` that
this takes a comment, and `Tree.Builder.eq_nil_iff` when nothing is left.
-/

namespace Stencil

/-! ## Blank literals at the ends -/

namespace Whitespace

theorem dropFront_eq_nil_iff
    {fs : List Fragment} :
    dropFront fs = [] ↔ fs = [] := by
  unfold dropFront
  split
  · split <;> simp
  · rfl

theorem compact_eq_nil_iff
    {fs : List Fragment} :
    compact fs = [] ↔ stripAll fs = [] := by
  rw [compact, dropBack, List.reverse_eq_nil_iff, dropFront_eq_nil_iff, List.reverse_eq_nil_iff,
    dropFront_eq_nil_iff]

/-- What is no literal is not blank. -/
theorem isBlank_eq_false
    {f : Fragment}
    (h : f.mark.isLiteral = false) :
    isBlank f = false := by
  unfold isBlank
  split
  · next hliteral =>
      rw [hliteral] at h
      cases h
  · rfl

/-- One blank literal goes at the front when something else is there. -/
theorem dropFront_append
    {blanks fs : List Fragment}
    (hblanks : ∀ f ∈ blanks, isBlank f = true)
    (hfs : ∃ f rest, fs = f :: rest ∧ isBlank f = false) :
    dropFront (blanks ++ fs) = blanks.tail ++ fs := by
  obtain ⟨f, rest, rfl, hf⟩ := hfs
  match blanks with
  | [] =>
      cases rest with
      | nil =>
          rfl
      | cons g rest =>
          simp [dropFront, hf]
  | [b] =>
      simp [dropFront, hblanks b List.mem_cons_self]
  | b :: c :: more =>
      simp [dropFront, hblanks b List.mem_cons_self]

/-- The fragments that are left between the ends, when one of them is not blank. -/
theorem dropBack_dropFront
    {front middle back : List Fragment}
    (hfront : ∀ f ∈ front, isBlank f = true)
    (hback : ∀ f ∈ back, isBlank f = true)
    (hfirst : ∃ f rest, middle = f :: rest ∧ isBlank f = false)
    (hlast : ∃ f rest, middle = rest ++ [f] ∧ isBlank f = false) :
    dropBack (dropFront (front ++ (middle ++ back))) = front.tail ++ (middle ++ back.dropLast) := by
  obtain ⟨f, rest, hmiddle, hf⟩ := hfirst
  obtain ⟨g, rest', hmiddle', hg⟩ := hlast
  have hstart : ∃ f rest, middle ++ back = f :: rest ∧ isBlank f = false :=
    ⟨f, rest ++ back, by rw [hmiddle, List.cons_append], hf⟩
  have hend : ∃ f rest, (front.tail ++ middle).reverse = f :: rest ∧ isBlank f = false :=
    ⟨g, (front.tail ++ rest').reverse, by rw [hmiddle']; simp, hg⟩
  have hblanks : ∀ f ∈ back.reverse, isBlank f = true :=
    fun f hf => hback f (List.mem_reverse.1 hf)
  rw [dropFront_append hfront hstart, ← List.append_assoc, dropBack, List.reverse_append,
    dropFront_append hblanks hend, List.reverse_append, List.reverse_reverse, List.tail_reverse,
    List.reverse_reverse, List.append_assoc]

/-- How many blank literals stand at the front. -/
def blankCount (fs : List Fragment) : Nat := (fs.takeWhile isBlank).length

theorem blankCount_append
    {front : List Fragment} {f : Fragment}
    (hfront : ∀ g ∈ front, isBlank g = true)
    (hf : isBlank f = false)
    (rest : List Fragment) :
    blankCount (front ++ f :: rest) = front.length := by
  rw [blankCount, List.takeWhile_append_of_pos hfront,
    List.takeWhile_cons_of_neg (Bool.eq_false_iff.1 hf), List.append_nil]

/-- The first fragment that is not blank. -/
theorem exists_front
    {fs : List Fragment}
    (h : ∃ f ∈ fs, isBlank f = false) :
    ∃ front f rest, fs = front ++ f :: rest ∧ (∀ g ∈ front, isBlank g = true) ∧
      isBlank f = false := by
  induction fs with
  | nil =>
      obtain ⟨f, hf, -⟩ := h
      cases hf
  | cons g fs ih =>
      cases hg : isBlank g with
      | false =>
          exact ⟨[], g, fs, rfl, fun _ h => absurd h List.not_mem_nil, hg⟩
      | true =>
          obtain ⟨f, hf, hblank⟩ := h
          rcases List.mem_cons.1 hf with rfl | hf
          · rw [hg] at hblank
            cases hblank
          · obtain ⟨front, f, rest, rfl, hfront, hf⟩ := ih ⟨f, hf, hblank⟩
            exact ⟨g :: front, f, rest, rfl, List.forall_mem_cons.2 ⟨hg, hfront⟩, hf⟩

/-- A list with a fragment that is not blank falls into blank literals, a part that begins and ends
with no blank literal, and blank literals. -/
theorem exists_middle
    {fs : List Fragment}
    (h : ∃ f ∈ fs, isBlank f = false) :
    ∃ front middle back, fs = front ++ (middle ++ back) ∧
      front.length = blankCount fs ∧ back.length = blankCount fs.reverse ∧
      (∀ f ∈ front, isBlank f = true) ∧ (∀ f ∈ back, isBlank f = true) ∧
      (∃ f rest, middle = f :: rest ∧ isBlank f = false) ∧
      ∃ f rest, middle = rest ++ [f] ∧ isBlank f = false := by
  obtain ⟨front, f, rest, rfl, hfront, hf⟩ := exists_front h
  have hmem : ∃ g ∈ (f :: rest).reverse, isBlank g = false :=
    ⟨f, List.mem_reverse.2 List.mem_cons_self, hf⟩
  obtain ⟨back, g, rest', hreverse, hback, hg⟩ := exists_front hmem
  have hsplit : f :: rest = rest'.reverse ++ [g] ++ back.reverse := by
    rw [← List.reverse_reverse (f :: rest), hreverse]
    simp
  refine ⟨front, rest'.reverse ++ [g], back.reverse, by rw [hsplit],
    (blankCount_append hfront hf rest).symm, ?_, hfront,
    fun f hf => hback f (List.mem_reverse.1 hf), ?_, g, rest'.reverse, rfl, hg⟩
  · rw [List.reverse_append, hreverse, List.append_assoc, List.cons_append,
      blankCount_append hback hg, List.length_reverse]
  · cases hrest : rest'.reverse with
    | nil =>
        exact ⟨g, [], rfl, hg⟩
    | cons e more =>
        rw [hrest, List.cons_append, List.cons_append] at hsplit
        obtain ⟨rfl, -⟩ := List.cons.inj hsplit
        exact ⟨f, more ++ [g], rfl, hf⟩

/-- The two ends are treated alike. -/
theorem reverse_dropBack_dropFront
    {fs : List Fragment}
    (h : ∃ f ∈ fs, isBlank f = false) :
    (dropBack (dropFront fs)).reverse = dropBack (dropFront fs.reverse) := by
  obtain ⟨front, middle, back, rfl, -, -, hfront, hback, hfirst, hlast⟩ := exists_middle h
  have hreverse : (front ++ (middle ++ back)).reverse =
      back.reverse ++ (middle.reverse ++ front.reverse) := by
    simp only [List.reverse_append, List.append_assoc]
  have hfirst' : ∃ f rest, middle.reverse = f :: rest ∧ isBlank f = false := by
    obtain ⟨f, rest, rfl, hf⟩ := hlast
    exact ⟨f, rest.reverse, by simp, hf⟩
  have hlast' : ∃ f rest, middle.reverse = rest ++ [f] ∧ isBlank f = false := by
    obtain ⟨f, rest, rfl, hf⟩ := hfirst
    exact ⟨f, rest.reverse, by simp, hf⟩
  rw [hreverse, dropBack_dropFront hfront hback hfirst hlast,
    dropBack_dropFront (fun f hf => hback f (List.mem_reverse.1 hf))
      (fun f hf => hfront f (List.mem_reverse.1 hf)) hfirst' hlast',
    List.reverse_append, List.reverse_append, List.tail_reverse, List.dropLast_reverse,
    List.append_assoc]

/-- Of two or more blank literals at the front one goes, as long as something else is there. -/
theorem head_isBlank_iff
    {fs : List Fragment}
    (h : ∃ f ∈ fs, isBlank f = false) :
    (dropBack (dropFront fs)).head?.any isBlank = true ↔ 2 ≤ blankCount fs := by
  obtain ⟨front, middle, back, rfl, hcount, -, hfront, hback, hfirst, hlast⟩ := exists_middle h
  rw [dropBack_dropFront hfront hback hfirst hlast, ← hcount]
  obtain ⟨f, rest, hmiddle, hf⟩ := hfirst
  match front with
  | [] | [_] =>
      simp [hmiddle, hf]
  | _ :: b :: _ =>
      simp [hfront b (List.mem_cons_of_mem _ List.mem_cons_self)]

/-- Of two or more blank literals at the back one goes, as long as something else is there. -/
theorem getLast_isBlank_iff
    {fs : List Fragment}
    (h : ∃ f ∈ fs, isBlank f = false) :
    (dropBack (dropFront fs)).getLast?.any isBlank = true ↔ 2 ≤ blankCount fs.reverse := by
  have hreverse : ∃ f ∈ fs.reverse, isBlank f = false := by
    obtain ⟨f, hf, hblank⟩ := h
    exact ⟨f, List.mem_reverse.2 hf, hblank⟩
  rw [← head_isBlank_iff hreverse, ← reverse_dropBack_dropFront h, List.head?_reverse]

end Whitespace

/-! ## Chunks of a text -/

namespace Chunk

/-- What is seen of a literal run in the default mode. -/
def shown (s : Bytes) : Bytes := Whitespace.strip (Entity.decode .text s)

/-- Whether a chunk of a text is a comment. -/
def isComment : Chunk → Bool
  | literal _ => false
  | expression form payload => Mark.isComment form ((Site.text 0).payload payload)

/-- Whether a chunk of a text leaves no fragment: a comment, or a literal run of which nothing is
seen. -/
def vanishes : Chunk → Bool
  | literal s => (shown s).isEmpty
  | c => c.isComment

/-- Whether a chunk of a text is a literal run of which only white space is seen. -/
def isBlank : Chunk → Bool
  | literal s => Text.isBlank (shown s)
  | expression .. => false

/-- The chunks that leave fragments. -/
def visible (chunks : List Chunk) : List Chunk := chunks.filter fun c => !c.vanishes

/-- How many blank literal runs stand at the front of a text, comments and runs of which nothing is
seen apart. -/
def blanksAhead (chunks : List Chunk) : Nat := ((visible chunks).takeWhile isBlank).length

/-- The stripped fragments of a chunk that leaves some: a single literal, or marks that are no
literals. -/
structure Leaves (c : Chunk) (fs : List Fragment) : Prop where
  ne_nil : fs ≠ []
  isBlank : ∀ f ∈ fs, Whitespace.isBlank f = c.isBlank
  single : c.isBlank = true → fs.length = 1

variable {isHelper : Bytes → Bool} {offset : Nat} {span : Span}

theorem isComment_of_called?
    {form : Form} {payload name : Bytes}
    (h : Mark.called? isHelper form payload = some name) :
    Mark.isComment form payload = false := by
  obtain ⟨rfl, b, rest, tokens, hbody, hsign, -⟩ := Mark.exists_of_called? h
  rw [Bool.or_eq_false_iff] at hsign
  simp only [Mark.isComment, hbody, List.head?_cons, beq_eq_false_iff_ne, ne_eq, Option.some.injEq]
  rintro rfl
  cases hsign.1

/-- Marks that are no literals are neither stripped nor blank. -/
theorem leaves_of_not_isLiteral
    {form : Form} {payload : Bytes} {fs : List Fragment}
    (hne : fs ≠ [])
    (hfs : ∀ f ∈ fs, f.mark.isLiteral = false) :
    (expression form payload).Leaves (Whitespace.stripAll fs) := by
  have hstrip : Whitespace.stripAll fs = fs := by
    have hkept : ∀ f ∈ fs, Whitespace.stripFragment f = some f := by
      intro f hf
      have hmark := hfs f hf
      unfold Whitespace.stripFragment
      split
      · next hliteral =>
          rw [hliteral] at hmark
          cases hmark
      · rfl
    rw [Whitespace.stripAll, List.filterMap_congr hkept, List.filterMap_some]
  rw [hstrip]
  refine ⟨hne, fun f hf => Whitespace.isBlank_eq_false (hfs f hf), fun h => ?_⟩
  cases h

/-- What is seen of a literal run. -/
theorem stripAll_literal
    (span : Span) (s : Bytes) :
    Whitespace.stripAll [⟨span, .literal (Entity.decode .text s)⟩] =
      if (shown s).isEmpty then [] else [⟨span, .literal (shown s)⟩] := by
  cases hempty : (shown s).isEmpty with
  | true =>
      exact List.filterMap_cons_none (if_pos hempty)
  | false =>
      exact List.filterMap_cons_some (if_neg (Bool.eq_false_iff.1 hempty))

/-- The fragments of a chunk once they are stripped. -/
theorem Yields.stripAll
    {c : Chunk} {fs : List Fragment}
    (h : c.Yields isHelper (.text offset) span fs) :
    (c.vanishes = true ∧ Whitespace.stripAll fs = []) ∨
      (c.vanishes = false ∧ c.Leaves (Whitespace.stripAll fs)) := by
  cases h with
  | text s =>
      have hstrip := stripAll_literal span s
      cases hempty : (shown s).isEmpty with
      | true =>
          rw [if_pos hempty] at hstrip
          exact .inl ⟨hempty, hstrip⟩
      | false =>
          rw [if_neg (Bool.eq_false_iff.1 hempty)] at hstrip
          refine .inr ⟨hempty, ?_⟩
          rw [hstrip]
          exact ⟨List.cons_ne_nil _ _, fun f hf => by rw [List.mem_singleton.1 hf]; rfl,
            fun _ => rfl⟩
  | comment hcomment =>
      exact .inl ⟨hcomment, rfl⟩
  | call hcalled hcall =>
      exact .inr ⟨isComment_of_called? hcalled,
        leaves_of_not_isLiteral (List.cons_ne_nil _ _) (by simp [Mark.isLiteral])⟩
  | single hcomment hcalled hmark hliteral =>
      exact .inr ⟨hcomment,
        leaves_of_not_isLiteral (List.cons_ne_nil _ _) (by simpa using hliteral)⟩

/-! ## Counting from either end -/

theorem Leaves.reverse
    {c : Chunk} {fs : List Fragment}
    (h : c.Leaves fs) :
    c.Leaves fs.reverse :=
  ⟨fun hnil => h.ne_nil (List.reverse_eq_nil_iff.1 hnil),
    fun f hf => h.isBlank f (List.mem_reverse.1 hf),
    fun hblank => (List.length_reverse).trans (h.single hblank)⟩

/-- The fragments of the chunks of a text, chunk by chunk and stripped. -/
theorem exists_leaves
    {start : Nat} {chunks : List Chunk} {fs : List Fragment}
    (h : Segments isHelper (.text offset) start chunks fs) :
    ∃ groups, List.Forall₂ Leaves (visible chunks) groups ∧
      Whitespace.stripAll fs = groups.flatten := by
  induction h with
  | nil =>
      exact ⟨[], .nil, rfl⟩
  | @cons start c chunks fs gs hyields _ ih =>
      obtain ⟨groups, hgroups, hflatten⟩ := ih
      have happend : Whitespace.stripAll (fs ++ gs) =
          Whitespace.stripAll fs ++ Whitespace.stripAll gs := List.filterMap_append
      rcases hyields.stripAll with ⟨hvanishes, hnil⟩ | ⟨hvisible, hleaves⟩
      · refine ⟨groups, ?_, by rw [happend, hnil, hflatten, List.nil_append]⟩
        rwa [visible, List.filter_cons_of_neg (by simpa using hvanishes)]
      · refine ⟨Whitespace.stripAll fs :: groups, ?_, by rw [happend, hflatten, List.flatten_cons]⟩
        rw [visible, List.filter_cons_of_pos (by simpa using hvisible)]
        exact .cons hleaves hgroups

theorem blankCount_flatten
    {chunks : List Chunk} {groups : List (List Fragment)}
    (h : List.Forall₂ Leaves chunks groups) :
    Whitespace.blankCount groups.flatten = (chunks.takeWhile isBlank).length := by
  induction h with
  | nil =>
      rfl
  | @cons c fs chunks groups hleaves _ ih =>
      obtain ⟨f, rest, rfl⟩ := List.exists_cons_of_ne_nil hleaves.ne_nil
      have hf := hleaves.isBlank f List.mem_cons_self
      rw [List.flatten_cons, List.cons_append]
      cases hblank : c.isBlank with
      | false =>
          rw [hblank] at hf
          rw [List.takeWhile_cons_of_neg (Bool.eq_false_iff.1 hblank)]
          have hnone : ∀ g ∈ ([] : List Fragment), Whitespace.isBlank g = true :=
            fun _ h => absurd h List.not_mem_nil
          exact Whitespace.blankCount_append hnone hf _
      | true =>
          have hrest : rest = [] := by
            have hlength := hleaves.single hblank
            rw [List.length_cons] at hlength
            exact List.eq_nil_of_length_eq_zero (by omega)
          rw [hblank] at hf
          rw [hrest, List.nil_append, Whitespace.blankCount, List.takeWhile_cons_of_pos hf,
            List.takeWhile_cons_of_pos hblank, List.length_cons, List.length_cons]
          exact congrArg (· + 1) ih

/-- Blank literals are counted in the chunks as in the fragments, from the front and from the
back. -/
theorem blankCount_stripAll
    {start : Nat} {chunks : List Chunk} {fs : List Fragment}
    (h : Segments isHelper (.text offset) start chunks fs) :
    Whitespace.blankCount (Whitespace.stripAll fs) = blanksAhead chunks ∧
      Whitespace.blankCount (Whitespace.stripAll fs).reverse = blanksAhead chunks.reverse := by
  obtain ⟨groups, hgroups, hflatten⟩ := exists_leaves h
  refine ⟨by rw [hflatten, blankCount_flatten hgroups]; rfl, ?_⟩
  have hreverse : List.Forall₂ Leaves (visible chunks.reverse) (groups.map List.reverse).reverse := by
    rw [visible, List.filter_reverse]
    refine List.rel_reverse ?_
    exact List.forall₂_map_right_iff.2 (hgroups.imp fun _ _ hleaves => hleaves.reverse)
  rw [hflatten, List.reverse_flatten, blankCount_flatten hreverse]
  rfl

theorem stripAll_eq_nil_iff
    {start : Nat} {chunks : List Chunk} {fs : List Fragment}
    (h : Segments isHelper (.text offset) start chunks fs) :
    Whitespace.stripAll fs = [] ↔ ∀ c ∈ chunks, c.vanishes = true := by
  obtain ⟨groups, hgroups, hflatten⟩ := exists_leaves h
  have hvisible : visible chunks = [] ↔ ∀ c ∈ chunks, c.vanishes = true := by
    simp only [visible, List.filter_eq_nil_iff, Bool.not_eq_true', Bool.not_eq_false]
  rw [hflatten, ← hvisible]
  generalize visible chunks = seen at hgroups
  cases hgroups with
  | nil =>
      simp
  | cons hleaves _ =>
      simp [hleaves.ne_nil]

/-! ## Texts without comments -/

/-- Whether a chunk is a literal run. -/
def isLiteral : Chunk → Bool
  | literal _ => true
  | expression .. => false

/-- No two literal runs are next to each other. -/
theorem isChain_of_tiles
    {s rest : Bytes} {chunks : List Chunk}
    (h : Tiles s chunks rest) :
    chunks.IsChain fun c d => c.isLiteral = false ∨ d.isLiteral = false := by
  induction h with
  | nil =>
      exact .nil
  | @cons c more chunks rest hfits htiles ih =>
      cases htiles with
      | nil =>
          exact .singleton c
      | @cons d more' chunks rest hfits' _ =>
          refine .cons_cons ?_ ih
          cases c with
          | expression form payload =>
              exact .inl rfl
          | literal s =>
              cases d with
              | expression form payload =>
                  exact .inr rfl
              | literal t =>
                  exact (hfits.not_literal hfits').elim

theorem blanksAhead_le_one
    {chunks : List Chunk}
    (hchain : chunks.IsChain fun c d => c.isLiteral = false ∨ d.isLiteral = false)
    (hcomments : ∀ c ∈ chunks, c.isComment = false) :
    blanksAhead chunks ≤ 1 := by
  -- An expression that is no comment is seen, and is not blank.
  have hstop : ∀ form payload rest, (expression form payload).isComment = false →
      blanksAhead (expression form payload :: rest) = 0 := by
    intro form payload rest hcomment
    have hvisible : (expression form payload).vanishes = false := hcomment
    rw [blanksAhead, visible, List.filter_cons_of_pos (by rw [hvisible]; rfl)]
    rfl
  match chunks with
  | [] =>
      exact Nat.zero_le 1
  | expression form payload :: rest =>
      rw [hstop form payload rest (hcomments _ List.mem_cons_self)]
      exact Nat.zero_le 1
  | [literal s] =>
      refine (List.takeWhile_sublist _).length_le.trans ?_
      exact (List.filter_sublist).length_le
  | literal s :: literal t :: rest =>
      cases hchain with
      | cons_cons h _ =>
          rcases h with h | h <;> cases h
  | literal s :: expression form payload :: rest =>
      have hrest := hstop form payload rest
        (hcomments _ (List.mem_cons_of_mem _ List.mem_cons_self))
      rw [blanksAhead, visible, List.filter_cons]
      split
      · rw [List.takeWhile_cons]
        split
        · rw [List.length_cons]
          exact Nat.le_of_eq (congrArg (· + 1) hrest)
        · exact Nat.zero_le 1
      · exact (Nat.le_of_eq hrest).trans (Nat.zero_le 1)

/-! ## White space and comments -/

/-- Whether a chunk is a comment or a literal run of white space of ASCII. -/
def isPadding : Chunk → Bool
  | literal s => s.all Ascii.isWhite
  | c => c.isComment

/-- Whether all white space of a chunk is dropped: it is a comment, or a run of line breaks and
tabs. -/
def isDropped : Chunk → Bool
  | literal s => s.all fun b => b == Ascii.newline || b == Ascii.tab || b == Ascii.carriageReturn
  | c => c.isComment

/-- White space is seen byte by byte. -/
theorem shown_cons
    {b : UInt8}
    (hb : Ascii.isWhite b = true)
    (s : Bytes) :
    shown (b :: s) = Whitespace.strip [b] ++ shown s := by
  have hascii := Whitespace.ascii_of_isWhite hb
  rw [shown, shown, ← List.nil_append (b :: s),
    Entity.decode_append_stop (Entity.stop_of_isWhite hb)]
  refine Whitespace.strip_append_of_glyphs (x := [b]) ?_
  rw [List.singleton_append, glyphs_cons_of_ascii hascii, glyphs_cons_of_ascii hascii]
  rfl

theorem vanishes_of_isPadding
    {c : Chunk}
    (h : c.isPadding = true) :
    c.vanishes = c.isDropped := by
  cases c with
  | expression form payload =>
      rfl
  | literal s =>
      have hwhite : ∀ b, Ascii.isWhite b = true → (Whitespace.strip [b]).isEmpty =
          (b == Ascii.newline || b == Ascii.tab || b == Ascii.carriageReturn) := fun b hb =>
        of_decide_eq_true (Ascii.of_isWhite (P := fun b => decide ((Whitespace.strip [b]).isEmpty =
          (b == Ascii.newline || b == Ascii.tab || b == Ascii.carriageReturn)))
          (by decide +kernel) hb)
      simp only [isPadding, vanishes, isDropped] at h ⊢
      induction s with
      | nil =>
          rfl
      | cons b s ih =>
          rw [List.all_cons, Bool.and_eq_true] at h
          have hempty : (Whitespace.strip [b] ++ shown s).isEmpty =
              ((Whitespace.strip [b]).isEmpty && (shown s).isEmpty) := by
            cases Whitespace.strip [b] <;> rfl
          rw [shown_cons h.1, hempty, ih h.2, List.all_cons, hwhite b h.1]

/-- White space of ASCII is blank. -/
theorem isBlank_of_isWhite
    {s : Bytes}
    (h : s.all Ascii.isWhite = true) :
    Text.isBlank s = true := by
  induction s with
  | nil =>
      rfl
  | cons b s ih =>
      rw [List.all_cons, Bool.and_eq_true] at h
      rw [Text.isBlank, glyphs_cons_of_ascii (Whitespace.ascii_of_isWhite h.1), List.all_cons,
        Bool.and_eq_true]
      have hspace := Ascii.of_isWhite (P := fun b => Text.isSpace (Char.ofNat b.toNat))
        (by decide) h.1
      exact ⟨hspace, ih h.2⟩

/-- A blank text has no expressions. -/
theorem isLiteral_of_isBlank
    {chunks : List Chunk}
    (h : Text.isBlank (chunks.flatMap source) = true) :
    ∀ c ∈ chunks, c.isLiteral = true := by
  intro c hc
  cases c with
  | literal s =>
      rfl
  | expression form payload =>
      have hbrace : Ascii.lbrace ∈ (expression form payload).source := by
        cases form <;> exact List.mem_cons_self
      have hspace := Text.isBlank_of_mem h (List.mem_flatMap.2 ⟨_, hc, hbrace⟩) (by decide)
      exact absurd hspace (by decide)

/-- White space and comments are blank as a text when no comment is there. -/
theorem isBlank_iff_of_isPadding
    {chunks : List Chunk}
    (h : ∀ c ∈ chunks, c.isPadding = true) :
    Text.isBlank (chunks.flatMap source) = true ↔ ∀ c ∈ chunks, c.isComment = false := by
  constructor
  · intro hblank c hc
    have hliteral := isLiteral_of_isBlank hblank c hc
    cases c with
    | literal s =>
        rfl
    | expression form payload =>
        cases hliteral
  · intro hcomments
    refine isBlank_of_isWhite (List.all_eq_true.2 fun b hb => ?_)
    obtain ⟨c, hc, hb⟩ := List.mem_flatMap.1 hb
    have hpadding := h c hc
    cases c with
    | literal s =>
        exact List.all_eq_true.1 hpadding b hb
    | expression form payload =>
        have hcomment : (expression form payload).isComment = true := hpadding
        rw [hcomments _ hc] at hcomment
        cases hcomment

end Chunk

namespace Tree
namespace Builder

/-- A text that is read in the default mode: it is blank and skipped, or it is compacted. -/
theorem cases_of_readText
    {r : Reading}
    (hr : r.keepWhitespace = false)
    {raw : Bytes} {span : Span} {attached : List Fragment}
    (hread : readText r raw span = .ok attached)
    {chunks : List Chunk}
    (htiles : Tiles raw chunks []) :
    (Text.isBlank raw = true ∧ attached = []) ∨
      (Text.isBlank raw = false ∧ ∃ fs, Segments r.isHelper (.text span.start) 0 chunks fs ∧
        attached = Whitespace.compact fs) := by
  obtain ⟨left, hscan, hleft⟩ := tiles_scan raw
  unfold readText at hread
  cases hblank : Text.isBlank raw with
  | true =>
      rw [hr, hblank, Bool.not_false, Bool.and_true, if_pos rfl] at hread
      exact .inl ⟨rfl, (Except.ok.inj hread).symm⟩
  | false =>
      rw [hr, hblank, Bool.and_false, if_neg Bool.false_ne_true] at hread
      obtain ⟨fs, hfs, heq⟩ := bind_eq_ok_iff.1 hread
      obtain ⟨hclosed, hsegments⟩ := Fragment.ofChunks_eq_ok_iff.1 hfs
      obtain ⟨-, rfl⟩ | ⟨hunclosed, -⟩ := hleft
      · have hsame : chunks = (scan raw).chunks := (htiles.unique hscan stuck_nil stuck_nil).1
        exact .inr ⟨rfl, fs, hsame ▸ hsegments, (Except.ok.inj heq).symm⟩
      · rw [hclosed] at hunclosed
        cases hunclosed

section Ends

variable {r : Reading} (hr : r.keepWhitespace = false)
variable {raw : Bytes} {span : Span} {attached : List Fragment}
variable (hread : readText r raw span = .ok attached)
variable {chunks : List Chunk} (htiles : Tiles raw chunks [])

include hr hread htiles

/-- When an end of a text is blank although something in it is not. -/
theorem isBlank_ends_iff
    (hsolid : ∃ f ∈ attached, Whitespace.isBlank f = false) :
    (attached.head?.any Whitespace.isBlank = true ↔ 2 ≤ Chunk.blanksAhead chunks) ∧
      (attached.getLast?.any Whitespace.isBlank = true ↔
        2 ≤ Chunk.blanksAhead chunks.reverse) := by
  obtain ⟨-, rfl⟩ | ⟨-, fs, hsegments, rfl⟩ := cases_of_readText hr hread htiles
  · obtain ⟨f, hf, -⟩ := hsolid
    cases hf
  · obtain ⟨f, hf, hblank⟩ := hsolid
    have hstripped : ∃ f ∈ Whitespace.stripAll fs, Whitespace.isBlank f = false :=
      ⟨f, Whitespace.mem_of_mem_compact hf, hblank⟩
    obtain ⟨hfront, hback⟩ := Chunk.blankCount_stripAll hsegments
    rw [← hfront, ← hback]
    exact ⟨Whitespace.head_isBlank_iff hstripped, Whitespace.getLast_isBlank_iff hstripped⟩

/-- When nothing is left of a text. -/
theorem eq_nil_iff :
    attached = [] ↔ Text.isBlank raw = true ∨ ∀ c ∈ chunks, c.vanishes = true := by
  obtain ⟨hblank, rfl⟩ | ⟨hblank, fs, hsegments, rfl⟩ := cases_of_readText hr hread htiles
  · simp [hblank]
  · rw [Whitespace.compact_eq_nil_iff, Chunk.stripAll_eq_nil_iff hsegments, hblank]
    simp

/-- When nothing is left of white space and comments. -/
theorem eq_nil_iff_of_isPadding
    (hpadding : ∀ c ∈ chunks, c.isPadding = true) :
    attached = [] ↔
      (∀ c ∈ chunks, c.isComment = false) ∨ ∀ c ∈ chunks, c.isDropped = true := by
  have hraw : raw = chunks.flatMap Chunk.source := by
    rw [htiles.eq_append, List.append_nil]
  rw [eq_nil_iff hr hread htiles, hraw, Chunk.isBlank_iff_of_isPadding hpadding]
  refine or_congr_right (forall₂_congr fun c hc => ?_)
  rw [Chunk.vanishes_of_isPadding (hpadding c hc)]

end Ends

end Builder
end Tree
end Stencil
