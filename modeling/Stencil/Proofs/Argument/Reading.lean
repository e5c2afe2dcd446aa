import Mathlib.Data.List.Infix
import Stencil.Proofs.Argument.Tokens

/-!
# Splitting loses nothing

A call is read from left to right as pieces: blanks, quoted texts, groups, and bytes that stand for
themselves.  `Piece.Fits` says when a piece may be read, by what it holds and what follows:

* a quoted text goes up to its first mark that no backslash escapes;
* a group goes up to the `}}` that matches its `{{`, read from left to right;
* a byte stands for itself unless it is a blank, a mark, or the first of two opening braces.

`Reads` reads pieces one after the other.  Every call can be read to its end, or to a mark or a `{{`
behind which nothing ends what it begins.

Algorithm: one piece is what the walk of `splitFrom` does in one go, so a reading determines the
tokens: they are the runs of pieces between blanks.  A run can be read again on its own, since only
a brace behind it could disturb it.

Result: `Argument.split_is_lossless`.
-/

namespace Stencil
namespace Argument

/-! ## Pieces -/

/-- The texts that end a quoted text: bytes and escaped bytes up to the first mark. -/
inductive EndsText (mark : UInt8) : Bytes → Prop where
  | close : EndsText mark [mark]
  | escape (b : UInt8) {s : Bytes} (more : EndsText mark s) :
      EndsText mark (Ascii.backslash :: b :: s)
  | byte {b : UInt8} {s : Bytes} (noBackslash : b ≠ Ascii.backslash) (noMark : b ≠ mark)
      (more : EndsText mark s) : EndsText mark (b :: s)

/-- The texts that end a group: bytes and whole groups up to the first `}}`. -/
inductive EndsGroup : Bytes → Prop where
  | close : EndsGroup [Ascii.rbrace, Ascii.rbrace]
  | nested {s t : Bytes} (inner : EndsGroup s) (more : EndsGroup t) :
      EndsGroup (Ascii.lbrace :: Ascii.lbrace :: (s ++ t))
  | byte {b : UInt8} {s : Bytes} (noOpener : b = Ascii.lbrace → s.head? ≠ some Ascii.lbrace)
      (noCloser : b = Ascii.rbrace → s.head? ≠ some Ascii.rbrace) (more : EndsGroup s) :
      EndsGroup (b :: s)

/-- The marks of quoted texts. -/
def IsMark (mark : UInt8) : Prop := mark = Ascii.quote ∨ mark = Ascii.apostrophe

/-- What is read in one go; texts and groups are given with what ends them. -/
inductive Piece where
  | blank (b : UInt8)
  | bare (b : UInt8)
  | text (mark : UInt8) (s : Bytes)
  | group (s : Bytes)

namespace Piece

/-- The bytes of a piece. -/
def bytes : Piece → Bytes
  | blank b | bare b => [b]
  | text mark s => mark :: s
  | group s => Ascii.lbrace :: Ascii.lbrace :: s

/-- Whether a piece separates tokens. -/
def isBlank : Piece → Bool
  | blank _ => true
  | _ => false

/-- A piece can be read when something follows. -/
def Fits (rest : Bytes) : Piece → Prop
  | blank b => isSpace b = true
  | bare b =>
    isSpace b = false ∧ ¬ IsMark b ∧ (b = Ascii.lbrace → rest.head? ≠ some Ascii.lbrace)
  | text mark s => IsMark mark ∧ EndsText mark s
  | group s => EndsGroup s

end Piece

/-- A text is read as pieces, up to a rest. -/
inductive Reads : Bytes → List Piece → Bytes → Prop where
  | here (rest : Bytes) : Reads rest [] rest
  | next {p : Piece} {ps : List Piece} {s rest : Bytes} (fits : p.Fits s) (more : Reads s ps rest) :
      Reads (p.bytes ++ s) (p :: ps) rest

/-- The text ends inside of a quoted text: reading comes to a mark, and nothing behind the mark ends
what it begins. -/
def EndsInText (s : Bytes) : Prop :=
  ∃ ps mark t, Reads s ps (mark :: t) ∧ IsMark mark ∧ ∀ u, u <+: t → ¬ EndsText mark u

/-- The text ends inside of a group: reading comes to two opening braces, and nothing behind them
ends what they begin. -/
def EndsInGroup (s : Bytes) : Prop :=
  ∃ ps t, Reads s ps (Ascii.lbrace :: Ascii.lbrace :: t) ∧ ∀ u, u <+: t → ¬ EndsGroup u

/-- The pieces between blanks. -/
def runs : List Piece → List (List Piece)
  | [] => [[]]
  | p :: ps => if p.isBlank then [] :: runs ps else (runs ps).modifyHead (p :: ·)

/-- The bytes of pieces. -/
def written (ps : List Piece) : Bytes := ps.flatMap Piece.bytes

/-- The tokens of a reading: what stands between blanks, where anything does. -/
def words (ps : List Piece) : List Bytes :=
  ((runs ps).map written).filter fun word => !word.isEmpty

/-! ## What ends a text or a group -/

theorem EndsText.passes
    {mark : UInt8} {s : Bytes}
    (hmark : IsMark mark)
    (h : EndsText mark s) :
    Passes (.text mark) .nothing s := by
  induction h with
  | close =>
      exact passes_close hmark
  | escape b _ ih =>
      exact (passes_escape mark b).append ih
  | byte noBackslash noMark _ ih =>
      exact (passes_stay noBackslash noMark).cons ih

theorem EndsGroup.ne_nil
    {s : Bytes}
    (h : EndsGroup s) :
    s ≠ [] := by
  cases h <;> exact List.cons_ne_nil _ _

/-- What is around a group at some depth. -/
def around : Nat → Inside
  | 0 => .nothing
  | n + 1 => .groups n

theorem passes_closer
    (n : Nat) :
    Passes (.groups n) (around n) [Ascii.rbrace, Ascii.rbrace] := by
  intro rest
  cases n <;> rfl

theorem passes_opener
    (n : Nat) :
    Passes (.groups n) (.groups (n + 1)) [Ascii.lbrace, Ascii.lbrace] :=
  fun _ => rfl

/-- In a group a byte is part of it when it begins no pair of braces. -/
theorem splitFrom_groups_cons
    {b : UInt8} {s : Bytes}
    (hopener : b = Ascii.lbrace → s.head? ≠ some Ascii.lbrace)
    (hcloser : b = Ascii.rbrace → s.head? ≠ some Ascii.rbrace)
    (n : Nat) :
    splitFrom (.groups n) (b :: s) = (splitFrom (.groups n) s).map (Tokens.extend [b]) := by
  rw [splitFrom]
  · rintro tail hb rfl
    exact hopener hb rfl
  · rintro tail hb rfl
    exact hcloser hb rfl

theorem EndsGroup.passes
    {s : Bytes}
    (h : EndsGroup s)
    (n : Nat) :
    Passes (.groups n) (around n) s := by
  induction h generalizing n with
  | close =>
      exact passes_closer n
  | nested _ _ ihInner ihMore =>
      exact (passes_opener n).append ((ihInner (n + 1)).append (ihMore n))
  | @byte b s noOpener noCloser more ih =>
      intro rest
      have hhead : (s ++ rest).head? = s.head? := List.head?_append_of_ne_nil s more.ne_nil
      rw [List.cons_append, splitFrom_groups_cons (hhead ▸ noOpener) (hhead ▸ noCloser), ih,
        map_extend_extend]
      rfl

/-- Behind a mark the text ends, or the call ends inside of it. -/
theorem endsText_or_splitFrom
    {mark : UInt8}
    (hmark : IsMark mark)
    (t : Bytes) :
    (∃ u, u <+: t ∧ EndsText mark u) ∨ splitFrom (.text mark) t = .error (.text mark) := by
  induction hn : t.length using Nat.strongRecOn generalizing t with
  | ind n ih =>
      cases t with
      | nil =>
          exact Or.inr rfl
      | cons b t =>
          by_cases hmarked : b = mark
          · subst hmarked
            exact Or.inl ⟨[b], ⟨t, rfl⟩, .close⟩
          by_cases hbackslash : b = Ascii.backslash
          · subst hbackslash
            cases t with
            | nil =>
                exact Or.inr rfl
            | cons c t =>
                rcases ih t.length (by simp at hn; omega) t rfl with ⟨u, hu, hends⟩ | hopen
                · refine Or.inl ⟨_, ?_, .escape c hends⟩
                  exact (List.prefix_append_right_inj [Ascii.backslash, c]).2 hu
                · have hescape : splitFrom (.text mark) (Ascii.backslash :: c :: t) = _ :=
                    passes_escape mark c t
                  right
                  rw [hescape, hopen]
                  rfl
          · rcases ih t.length (by simp at hn; omega) t rfl with ⟨u, hu, hends⟩ | hopen
            · exact Or.inl ⟨b :: u, (List.prefix_cons_inj b).2 hu, .byte hbackslash hmarked hends⟩
            · right
              rw [← List.singleton_append, passes_stay hbackslash hmarked, hopen]
              rfl

/-- Behind two opening braces the group ends, or the call ends inside of it. -/
theorem endsGroup_or_splitFrom
    (t : Bytes) (n : Nat) :
    (∃ u, u <+: t ∧ EndsGroup u) ∨ ∃ depth, splitFrom (.groups n) t = .error (.groups depth) := by
  induction hn : t.length using Nat.strongRecOn generalizing t n with
  | ind length ih =>
      cases t with
      | nil =>
          exact Or.inr ⟨n, rfl⟩
      | cons b t =>
          by_cases hcloser : b = Ascii.rbrace ∧ t.head? = some Ascii.rbrace
          · obtain ⟨rfl, hhead⟩ := hcloser
            obtain ⟨t, rfl⟩ := List.head?_eq_some_iff.1 hhead
            exact Or.inl ⟨_, ⟨t, rfl⟩, .close⟩
          by_cases hopener : b = Ascii.lbrace ∧ t.head? = some Ascii.lbrace
          · obtain ⟨rfl, hhead⟩ := hopener
            obtain ⟨t, rfl⟩ := List.head?_eq_some_iff.1 hhead
            have hstart : splitFrom (.groups n) (Ascii.lbrace :: Ascii.lbrace :: t) = _ :=
              passes_opener n t
            -- The group that begins here has to end before the one around it can.
            rcases ih t.length (by simp at hn; omega) t (n + 1) rfl with
              ⟨u, ⟨t', rfl⟩, hinner⟩ | ⟨depth, hopen⟩
            · rcases ih t'.length (by simp at hn; omega) t' n rfl with
                ⟨v, hv, hends⟩ | ⟨depth, hopen⟩
              · refine Or.inl ⟨_, ?_, .nested hinner hends⟩
                have hboth : u ++ v <+: u ++ t' := (List.prefix_append_right_inj u).2 hv
                simpa using hboth
              · right
                rw [hstart, hinner.passes, around, hopen]
                exact ⟨depth, rfl⟩
            · right
              rw [hstart, hopen]
              exact ⟨depth, rfl⟩
          · have hpair := not_and.1 hopener
            have hpair' := not_and.1 hcloser
            rcases ih t.length (by simp at hn; omega) t n rfl with
              ⟨u, ⟨t', rfl⟩, hends⟩ | ⟨depth, hopen⟩
            · have hhead : (u ++ t').head? = u.head? :=
                List.head?_append_of_ne_nil u hends.ne_nil
              rw [hhead] at hpair hpair'
              exact Or.inl ⟨b :: u, ⟨t', rfl⟩, .byte hpair hpair' hends⟩
            · right
              rw [splitFrom_groups_cons hpair hpair', hopen]
              exact ⟨depth, rfl⟩

/-! ## Reading a call -/

/-- A piece in front of what is read behind it. -/
def Piece.onto (p : Piece) (t : Tokens) : Tokens :=
  if p.isBlank then ([], t.all) else t.extend p.bytes

/-- One piece is what the walk does in one go. -/
theorem splitFrom_piece
    {p : Piece} {s : Bytes}
    (h : p.Fits s) :
    splitFrom .nothing (p.bytes ++ s) = (splitFrom .nothing s).map p.onto := by
  cases p with
  | blank b =>
      have hb : b = Ascii.blank ∨ b = Ascii.tab ∨ b = Ascii.newline ∨ b = Ascii.carriageReturn := by
        simpa [Piece.Fits, isSpace, or_assoc] using h
      rcases hb with rfl | rfl | rfl | rfl <;> rfl
  | bare b =>
      obtain ⟨hspace, hmark, hbrace⟩ := h
      have hbyte : splitFrom .nothing (b :: s) =
          (splitFrom .nothing s).map (Tokens.extend [b]) := by
        rw [splitFrom, hspace, if_neg Bool.false_ne_true]
        · exact if_neg hmark
        · rintro tail hb rfl
          exact hbrace hb rfl
      exact hbyte
  | text mark t =>
      obtain ⟨hmark, hends⟩ := h
      exact ((passes_open hmark).append (hends.passes hmark)) s
  | group t =>
      have hopen : Passes .nothing (.groups 0) [Ascii.lbrace, Ascii.lbrace] := fun _ => rfl
      exact (hopen.append (h.passes 0)) s

theorem Reads.splitFrom
    {s rest : Bytes} {ps : List Piece}
    (h : Reads s ps rest) :
    splitFrom .nothing s = (splitFrom .nothing rest).map fun t => ps.foldr Piece.onto t := by
  induction h with
  | here rest =>
      cases Argument.splitFrom .nothing rest <;> rfl
  | @next p ps s rest fits _ ih =>
      rw [splitFrom_piece fits, ih]
      cases Argument.splitFrom .nothing rest <;> rfl

theorem Reads.eq_written
    {s rest : Bytes} {ps : List Piece}
    (h : Reads s ps rest) :
    s = written ps ++ rest := by
  induction h with
  | here rest =>
      rfl
  | next _ _ ih =>
      rw [ih, written, written, List.flatMap_cons, List.append_assoc]

/-- What can be said about the end of a text can be said with one more piece in front. -/
theorem ends_of_fits
    {p : Piece} {s : Bytes}
    (hfits : p.Fits s)
    (h : (∃ ps, Reads s ps []) ∨ EndsInText s ∨ EndsInGroup s) :
    (∃ ps, Reads (p.bytes ++ s) ps []) ∨ EndsInText (p.bytes ++ s) ∨
      EndsInGroup (p.bytes ++ s) := by
  rcases h with ⟨ps, hreads⟩ | ⟨ps, mark, t, hreads, hopen⟩ | ⟨ps, t, hreads, hopen⟩
  · exact Or.inl ⟨_, .next hfits hreads⟩
  · exact Or.inr (Or.inl ⟨_, mark, t, .next hfits hreads, hopen⟩)
  · exact Or.inr (Or.inr ⟨_, t, .next hfits hreads, hopen⟩)

/-- Every text can be read to its end, or ends inside of something. -/
theorem reads_or_endsIn
    (s : Bytes) :
    (∃ ps, Reads s ps []) ∨ EndsInText s ∨ EndsInGroup s := by
  induction hn : s.length using Nat.strongRecOn generalizing s with
  | ind length ih =>
      cases s with
      | nil =>
          exact Or.inl ⟨[], .here []⟩
      | cons b s =>
          have hrest : ∀ p : Piece, ∀ t, b :: s = p.bytes ++ t → p.Fits t → t.length ≤ s.length →
              (∃ ps, Reads (b :: s) ps []) ∨ EndsInText (b :: s) ∨ EndsInGroup (b :: s) := by
            intro p t heq hfits hlength
            rw [heq]
            exact ends_of_fits hfits (ih t.length (by simp at hn; omega) t rfl)
          by_cases hmark : IsMark b
          · by_cases hends : ∃ u, u <+: s ∧ EndsText b u
            · obtain ⟨u, ⟨t, rfl⟩, hu⟩ := hends
              exact hrest (.text b u) t rfl ⟨hmark, hu⟩ (by simp)
            · refine Or.inr (Or.inl ⟨[], b, s, .here _, hmark, fun u hu hu' => ?_⟩)
              exact hends ⟨u, hu, hu'⟩
          by_cases hopener : b = Ascii.lbrace ∧ s.head? = some Ascii.lbrace
          · obtain ⟨rfl, hhead⟩ := hopener
            obtain ⟨s, rfl⟩ := List.head?_eq_some_iff.1 hhead
            by_cases hends : ∃ u, u <+: s ∧ EndsGroup u
            · obtain ⟨u, ⟨t, rfl⟩, hu⟩ := hends
              exact hrest (.group u) t rfl hu (by simp; omega)
            · refine Or.inr (Or.inr ⟨[], s, .here _, fun u hu hu' => ?_⟩)
              exact hends ⟨u, hu, hu'⟩
          · cases hspace : isSpace b with
            | true =>
                exact hrest (.blank b) s rfl hspace (Nat.le_refl _)
            | false =>
                exact hrest (.bare b) s rfl ⟨hspace, hmark, not_and.1 hopener⟩ (Nat.le_refl _)

theorem split_of_endsInText
    {s : Bytes}
    (h : EndsInText s) :
    split s = .error (.unterminatedText s) := by
  obtain ⟨ps, mark, t, hreads, hmark, hopen⟩ := h
  have hstart : splitFrom .nothing (mark :: t) = _ := passes_open hmark t
  rcases endsText_or_splitFrom hmark t with ⟨u, hu, hends⟩ | hfails
  · exact absurd hends (hopen u hu)
  · rw [split, hreads.splitFrom, hstart, hfails]
    rfl

theorem split_of_endsInGroup
    {s : Bytes}
    (h : EndsInGroup s) :
    split s = .error (.unclosedGroup s) := by
  obtain ⟨ps, t, hreads, hopen⟩ := h
  have hstart : splitFrom .nothing (Ascii.lbrace :: Ascii.lbrace :: t) =
      (splitFrom (.groups 0) t).map (Tokens.extend [Ascii.lbrace, Ascii.lbrace]) := rfl
  rcases endsGroup_or_splitFrom t 0 with ⟨u, hu, hends⟩ | ⟨depth, hfails⟩
  · exact absurd hends (hopen u hu)
  · rw [split, hreads.splitFrom, hstart, hfails]
    rfl

/-! ## Runs -/

theorem foldr_onto
    {ps : List Piece}
    (h : ∀ p ∈ ps, p.isBlank = false)
    (t : Tokens) :
    ps.foldr Piece.onto t = t.extend (written ps) := by
  induction ps with
  | nil =>
      rfl
  | cons p ps ih =>
      obtain ⟨hp, hps⟩ := List.forall_mem_cons.1 h
      rw [List.foldr_cons, ih hps, Piece.onto, hp, if_neg Bool.false_ne_true]
      simp [Tokens.extend, written]

/-- The tokens that the walk finds are the words of the reading. -/
theorem foldr_onto_runs
    (ps : List Piece) :
    ∃ run more, runs ps = run :: more ∧ ps.foldr Piece.onto ([], []) =
      (written run, (more.map written).filter fun word => !word.isEmpty) := by
  induction ps with
  | nil =>
      exact ⟨[], [], rfl, rfl⟩
  | cons p ps ih =>
      obtain ⟨run, more, hruns, hfold⟩ := ih
      have hnone : written [] = [] := rfl
      rw [runs, List.foldr_cons, hfold, hruns, Piece.onto]
      cases hp : p.isBlank with
      | true =>
          refine ⟨[], run :: more, rfl, ?_⟩
          cases hrun : written run <;> simp [Tokens.all, hrun, hnone]
      | false =>
          exact ⟨p :: run, more, rfl, by simp [Tokens.extend, written]⟩

theorem all_foldr_onto
    (ps : List Piece) :
    (ps.foldr Piece.onto ([], [])).all = words ps := by
  obtain ⟨run, more, hruns, hfold⟩ := foldr_onto_runs ps
  rw [hfold, words, hruns, List.map_cons]
  cases hrun : written run <;> simp [Tokens.all]

/-- A reading to the end determines the tokens. -/
theorem Reads.split
    {s : Bytes} {ps : List Piece}
    (h : Reads s ps []) :
    split s = .ok (words ps) := by
  have hempty : Argument.splitFrom .nothing [] = .ok ([], []) := rfl
  rw [Argument.split, h.splitFrom, hempty, ← all_foldr_onto]
  rfl

theorem flatten_runs
    (ps : List Piece) :
    (runs ps).flatten = ps.filter fun p => !p.isBlank := by
  induction ps with
  | nil =>
      rfl
  | cons p ps ih =>
      rw [runs]
      cases hp : p.isBlank with
      | true =>
          simp [hp, ih]
      | false =>
          obtain ⟨run, more, hruns, _⟩ := foldr_onto_runs ps
          rw [hruns] at ih
          simp [hp, hruns, ← ih]

/-- The words of a reading have all its bytes but the blanks. -/
theorem flatten_words
    (ps : List Piece) :
    (words ps).flatten = written (ps.filter fun p => !p.isBlank) := by
  rw [words, List.flatten_filter_not_isEmpty, ← flatten_runs]
  induction runs ps with
  | nil =>
      rfl
  | cons run more ih =>
      rw [List.map_cons, List.flatten_cons, List.flatten_cons, ih, written, written, written,
        List.flatMap_append]

theorem Piece.Fits.of_prefix
    {p : Piece} {s t : Bytes}
    (h : p.Fits s)
    (ht : t <+: s) :
    p.Fits t := by
  cases p with
  | bare b =>
      refine ⟨h.1, h.2.1, fun hb => ?_⟩
      obtain ⟨rest, rfl⟩ := ht
      cases t with
      | nil =>
          simp
      | cons c t =>
          exact h.2.2 hb
  | blank | text | group =>
      exact h

theorem Piece.Fits.append
    {p : Piece} {s rest : Bytes}
    (h : p.Fits s)
    (hrest : rest.head? ≠ some Ascii.lbrace) :
    p.Fits (s ++ rest) := by
  cases p with
  | bare b =>
      refine ⟨h.1, h.2.1, fun hb => ?_⟩
      cases s with
      | nil =>
          exact hrest
      | cons c s =>
          exact h.2.2 hb
  | blank | text | group =>
      exact h

/-- A reading goes on as before when anything but an opening brace follows. -/
theorem Reads.append
    {s rest : Bytes} {ps : List Piece}
    (h : Reads s ps [])
    (hrest : rest.head? ≠ some Ascii.lbrace) :
    Reads (s ++ rest) ps rest := by
  generalize hend : ([] : Bytes) = last at h
  induction h with
  | here last =>
      subst hend
      exact .here rest
  | next fits _ ih =>
      rw [List.append_assoc]
      exact .next (fits.append hrest) (ih hend)

/-- The pieces between blanks can be read on their own. -/
theorem reads_runs
    {s : Bytes} {ps : List Piece}
    (h : Reads s ps []) :
    ∃ run more, runs ps = run :: more ∧ written run <+: s ∧
      ∀ r ∈ run :: more, Reads (written r) r [] ∧ ∀ p ∈ r, p.isBlank = false := by
  generalize hend : ([] : Bytes) = last at h
  have hnone : Reads (written []) [] [] ∧ ∀ p ∈ ([] : List Piece), p.isBlank = false :=
    ⟨.here [], fun p hp => absurd hp List.not_mem_nil⟩
  induction h with
  | here last =>
      subst hend
      exact ⟨[], [], rfl, List.nil_prefix, by simpa using hnone⟩
  | @next p ps s last fits _ ih =>
      subst hend
      obtain ⟨run, more, hruns, hprefix, hall⟩ := ih rfl
      rw [runs, hruns]
      cases hp : p.isBlank with
      | true =>
          exact ⟨[], run :: more, rfl, List.nil_prefix, List.forall_mem_cons.2 ⟨hnone, hall⟩⟩
      | false =>
          obtain ⟨⟨hreads, hblank⟩, hmore⟩ := List.forall_mem_cons.1 hall
          refine ⟨p :: run, more, rfl, (List.prefix_append_right_inj p.bytes).2 hprefix,
            List.forall_mem_cons.2 ⟨⟨?_, ?_⟩, hmore⟩⟩
          · exact .next (fits.of_prefix hprefix) hreads
          · exact List.forall_mem_cons.2 ⟨hp, hblank⟩

theorem Reads.detached
    {s : Bytes} {ps : List Piece}
    (h : Reads s ps [])
    (hblank : ∀ p ∈ ps, p.isBlank = false) :
    Detached s := by
  intro rest hrest
  have hs := h.eq_written
  rw [List.append_nil] at hs
  rw [(h.append hrest).splitFrom, hs]
  exact congrArg (fun f => Except.map f _) (funext (foldr_onto hblank))

theorem words_detached
    {s : Bytes} {ps : List Piece}
    (h : Reads s ps []) :
    ∀ word ∈ words ps, Detached word ∧ word ≠ [] := by
  intro word hword
  obtain ⟨hmem, hempty⟩ := List.mem_filter.1 hword
  obtain ⟨run, hrun, rfl⟩ := List.mem_map.1 hmem
  obtain ⟨first, more, hruns, _, hall⟩ := reads_runs h
  obtain ⟨hreads, hblank⟩ := hall run (hruns ▸ hrun)
  exact ⟨hreads.detached hblank, by simpa using hempty⟩

/-- A call is split into the words of a reading, or it ends inside of something. -/
theorem split_cases
    (s : Bytes) :
    (∃ ps, Reads s ps [] ∧ split s = .ok (words ps)) ∨
      (EndsInText s ∧ split s = .error (.unterminatedText s)) ∨
      (EndsInGroup s ∧ split s = .error (.unclosedGroup s)) := by
  rcases reads_or_endsIn s with ⟨ps, hreads⟩ | htext | hgroup
  · exact Or.inl ⟨ps, hreads, hreads.split⟩
  · exact Or.inr (Or.inl ⟨htext, split_of_endsInText htext⟩)
  · exact Or.inr (Or.inr ⟨hgroup, split_of_endsInGroup hgroup⟩)

/-- A call is split exactly when it can be read to its end.  The tokens are then what stands between
blanks; none is empty, together they are the call without the blanks outside of quoted texts and
groups, each alone is split into itself, and with single blanks in between they are split again into
the same tokens.  Otherwise the call ends inside of a quoted text or of a group, and that is what
the error says. -/
theorem split_is_lossless
    (s : Bytes) :
    (∀ tokens, split s = .ok tokens →
      (∃ ps, Reads s ps [] ∧ tokens = words ps) ∧
      (∀ ps, Reads s ps [] → tokens.flatten = written (ps.filter fun p => !p.isBlank)) ∧
      (∀ token ∈ tokens, token ≠ [] ∧ split token = .ok [token]) ∧
      split (Bytes.join [Ascii.blank] tokens) = .ok tokens) ∧
    ((∃ e, split s = .error e) ↔ EndsInText s ∨ EndsInGroup s) ∧
    (split s = .error (.unterminatedText s) ↔ EndsInText s) ∧
    (split s = .error (.unclosedGroup s) ↔ EndsInGroup s) := by
  have htext : split s = .error (.unterminatedText s) ↔ EndsInText s := by
    constructor
    · intro herror
      rcases split_cases s with ⟨ps, _, hok⟩ | ⟨hends, _⟩ | ⟨_, hgroup⟩
      · cases hok.symm.trans herror
      · exact hends
      · cases hgroup.symm.trans herror
    · exact split_of_endsInText
  have hgroup : split s = .error (.unclosedGroup s) ↔ EndsInGroup s := by
    constructor
    · intro herror
      rcases split_cases s with ⟨ps, _, hok⟩ | ⟨_, htext⟩ | ⟨hends, _⟩
      · cases hok.symm.trans herror
      · cases htext.symm.trans herror
      · exact hends
    · exact split_of_endsInGroup
  refine ⟨fun tokens htokens => ?_, ⟨?_, ?_⟩, htext, hgroup⟩
  · obtain ⟨ps, hreads⟩ : ∃ ps, Reads s ps [] := by
      rcases split_cases s with ⟨ps, hreads, _⟩ | ⟨_, herror⟩ | ⟨_, herror⟩
      · exact ⟨ps, hreads⟩
      · cases htokens.symm.trans herror
      · cases htokens.symm.trans herror
    have hwords : ∀ ps, Reads s ps [] → tokens = words ps := fun ps hreads =>
      Except.ok.inj (htokens.symm.trans hreads.split)
    obtain rfl := hwords ps hreads
    have hdetached := words_detached hreads
    refine ⟨⟨ps, hreads, rfl⟩, fun ps' hreads' => ?_, fun token htoken => ?_, ?_⟩
    · rw [hwords ps' hreads', flatten_words]
    · have hsingle : split (Bytes.join [Ascii.blank] [token]) = .ok [token] :=
        split_join_of_detached (by simpa using hdetached token htoken)
      exact ⟨(hdetached token htoken).2, hsingle⟩
    · exact split_join_of_detached hdetached
  · rintro ⟨e, herror⟩
    rcases split_cases s with ⟨ps, _, hok⟩ | ⟨hends, _⟩ | ⟨hends, _⟩
    · cases hok.symm.trans herror
    · exact Or.inl hends
    · exact Or.inr hends
  · rintro (hends | hends)
    · exact ⟨_, htext.2 hends⟩
    · exact ⟨_, hgroup.2 hends⟩

/-- Two braces that stand apart, an escaped quote, and a group with a blank and a lone quote. -/
def crampedCall : Bytes := utf8 "\x7b \x7b\t'it\\'s \x7b\x7b' k=\x7b\x7bx \"y\x7d\x7d"

/-- The braces that stand apart are two tokens, which together would open a group; alone, and with a
blank in between, they do not. -/
theorem split_is_lossless_crampedCall :
    let tokens := [utf8 "\x7b", utf8 "\x7b", utf8 "'it\\'s \x7b\x7b'", utf8 "k=\x7b\x7bx \"y\x7d\x7d"]
    split crampedCall = .ok tokens ∧ split (Bytes.join [Ascii.blank] tokens) = .ok tokens ∧
      (∀ token ∈ tokens, split token = .ok [token]) ∧ EndsInGroup tokens.flatten := by
  intro tokens
  have hsplit : split crampedCall = .ok tokens := by decide +kernel
  have hfails : split tokens.flatten = .error (.unclosedGroup tokens.flatten) := by decide +kernel
  obtain ⟨_, _, htokens, hjoin⟩ := (split_is_lossless crampedCall).1 tokens hsplit
  obtain ⟨_, _, _, hgroup⟩ := split_is_lossless tokens.flatten
  exact ⟨hsplit, hjoin, fun token htoken => (htokens token htoken).2, hgroup.1 hfails⟩

end Argument
end Stencil
