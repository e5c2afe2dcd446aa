import Stencil.Playground
import Stencil.Proofs.Chunk
import Stencil.Proofs.Number.Decimal
import Stencil.Proofs.Sorted

/-!
# Rendering on change

The playground keeps a digest of the snapshot that it read last, and renders a snapshot whose digest
is another one.

Algorithm: an entry of a snapshot is written as its name, its length and its content.  The name ends
at the first null byte, the length at the next one, and the content after as many bytes as the
length says, so the text determines the entry and what follows it, whatever the content holds.

Results: `Snapshot.encode_eq_iff`, the text that a digest is taken of is the same exactly for the
same map from names to contents, and `renders_exactly_on_change` for all sequences of polls.
-/

namespace Stencil

namespace Bytes

/-- A numeral determines its number. -/
theorem decimal_inj
    {m n : Nat}
    (h : decimal m = decimal n) :
    m = n := by
  rw [← natOfDigits_decimal m, h, natOfDigits_decimal]

theorem zero_notMem_decimal
    (n : Nat) :
    (0 : UInt8) ∉ decimal n :=
  fun h => absurd (isDigit_of_mem_decimal h) (by decide)

end Bytes

/-! ## What a digest is taken of -/

namespace Snapshot

/-- A snapshot as a map: every name stands in it once, and no name holds a null byte. -/
structure IsMap (files : Snapshot) : Prop where
  distinct : (files.map Prod.fst).Nodup
  nullFree : ∀ f ∈ files, (0 : UInt8) ∉ f.1

/-- The same map: under every name there is the same content, or none. -/
def Same (files files' : Snapshot) : Prop := ∀ name, files.lookup name = files'.lookup name

/-- The text of one file: its name, its length and its content. -/
def entry (f : Bytes × Bytes) : Bytes := f.1 ++ [0] ++ Bytes.decimal f.2.length ++ [0] ++ f.2

theorem encode_eq_flatMap
    (files : Snapshot) :
    files.encode = (Datum.sorted files).flatMap entry :=
  rfl

/-- The text of a file determines the file and what follows. -/
theorem entry_append_inj
    {f g : Bytes × Bytes} {u v : Bytes}
    (hf : (0 : UInt8) ∉ f.1)
    (hg : (0 : UInt8) ∉ g.1)
    (h : entry f ++ u = entry g ++ v) :
    f = g ∧ u = v := by
  obtain ⟨name, content⟩ := f
  obtain ⟨name', content'⟩ := g
  simp only [entry, List.append_assoc, List.cons_append, List.nil_append] at h
  obtain ⟨hname, h⟩ := Bytes.append_cons_inj hf hg h
  obtain ⟨hlength, h⟩ := Bytes.append_cons_inj (Bytes.zero_notMem_decimal _)
    (Bytes.zero_notMem_decimal _) h
  obtain ⟨hcontent, hrest⟩ := List.append_inj h (Bytes.decimal_inj hlength)
  exact ⟨Prod.ext hname hcontent, hrest⟩

theorem entry_ne_nil
    (f : Bytes × Bytes) :
    entry f ≠ [] := by
  simp [entry]

/-- The texts of files one after the other determine the files, also when their numbers differ. -/
theorem flatMap_entry_inj
    {l l' : List (Bytes × Bytes)}
    (hl : ∀ f ∈ l, (0 : UInt8) ∉ f.1)
    (hl' : ∀ f ∈ l', (0 : UInt8) ∉ f.1)
    (h : l.flatMap entry = l'.flatMap entry) :
    l = l' := by
  induction l generalizing l' with
  | nil =>
      cases l' with
      | nil =>
          rfl
      | cons g rest' =>
          exact absurd (List.append_eq_nil_iff.1 h.symm).1 (entry_ne_nil g)
  | cons f rest ih =>
      cases l' with
      | nil =>
          exact absurd (List.append_eq_nil_iff.1 h).1 (entry_ne_nil f)
      | cons g rest' =>
          obtain ⟨hf, hrest⟩ := List.forall_mem_cons.1 hl
          obtain ⟨hg, hrest'⟩ := List.forall_mem_cons.1 hl'
          obtain ⟨rfl, hmore⟩ := entry_append_inj hf hg h
          rw [ih hrest hrest' hmore]

/-- What a digest is taken of is the same exactly for the same map. -/
theorem encode_eq_iff
    {files files' : Snapshot}
    (h : files.IsMap)
    (h' : files'.IsMap) :
    files.encode = files'.encode ↔ files.Same files' := by
  constructor
  · intro hencode name
    have hended : ∀ {l : Snapshot}, l.IsMap → ∀ f ∈ Datum.sorted l, (0 : UInt8) ∉ f.1 :=
      fun hl f hf => hl.nullFree f ((Datum.sorted_perm _).mem_iff.1 hf)
    have hsorted := flatMap_entry_inj (hended h) (hended h') hencode
    have hperm : files.Perm files' :=
      (Datum.sorted_perm files).symm.trans (hsorted ▸ Datum.sorted_perm files')
    exact Fields.lookup_eq_of_perm h.distinct hperm name
  · intro hsame
    rw [encode_eq_flatMap, encode_eq_flatMap,
      Datum.sorted_eq_of_lookup h.distinct h'.distinct hsame]

end Snapshot

/-! ## Polls -/

namespace Playground

/-- What is printed for the outcome of rendering. -/
def shown : Except Failure Bytes → Output
  | .ok html => .page (html ++ utf8 "\n")
  | .error e => .errors (announce .plain e.told)

/-- The last snapshot that was read at some polls. -/
def lastRead : List Poll → Option Snapshot
  | [] => none
  | poll :: rest => (lastRead rest).or poll.read.toOption

/-- A snapshot is the first one that is read after some polls, or not the map that was read last. -/
def Changed (polls : List Poll) (files : Snapshot) : Prop :=
  ∀ previous, lastRead polls = some previous → ¬ previous.Same files

variable {pg : Playground} {w : Watch} {p : Poll}

theorem poll_of_last
    {files : Snapshot}
    (hread : p.read = .ok files)
    (h : w.last = some files.digest) :
    pg.poll w p = (none, w) := by
  simp only [poll, hread, h, if_true]

theorem poll_of_other
    {files : Snapshot}
    (hread : p.read = .ok files)
    (h : w.last ≠ some files.digest) :
    pg.poll w p =
      (some (shown (pg.render p.orders files w.store).1),
        ⟨some files.digest, (pg.render p.orders files w.store).2⟩) := by
  simp only [poll, hread, h, if_false]
  cases (pg.render p.orders files w.store).1 <;> rfl

theorem poll_of_unread
    {e : InputError}
    (hread : p.read = .error e) :
    pg.poll w p =
      (some (.errors (utf8 "playground: read error: " ++ e.message ++ utf8 "\n")), w) := by
  simp only [poll, hread]

/-- One poll keeps the digest of what it reads, and else the one that was kept before. -/
theorem last_poll
    (pg : Playground) (w : Watch) (p : Poll) :
    (pg.poll w p).2.last = (p.read.toOption.map Snapshot.digest).or w.last := by
  cases hread : p.read with
  | error e =>
      rw [poll_of_unread hread]
      rfl
  | ok files =>
      by_cases h : w.last = some files.digest
      · rw [poll_of_last hread h, h]
        rfl
      · rw [poll_of_other hread h]
        rfl

/-- After any polls the digest that is kept is that of the snapshot read last. -/
theorem last_watch
    (pg : Playground) (w : Watch) (polls : List Poll) :
    (pg.watch w polls).2.last = ((lastRead polls).map Snapshot.digest).or w.last := by
  induction polls generalizing w with
  | nil =>
      rfl
  | cons p rest ih =>
      have hrest := ih (pg.poll w p).2
      rw [last_poll, ← Option.or_assoc, ← Option.map_or] at hrest
      exact hrest

theorem mem_of_lastRead
    {polls : List Poll} {files : Snapshot}
    (h : lastRead polls = some files) :
    ∃ p ∈ polls, p.read = .ok files := by
  induction polls with
  | nil =>
      cases h
  | cons p rest ih =>
      rcases Option.or_eq_some_iff.1 h with hrest | ⟨_, hp⟩
      · obtain ⟨q, hq, hread⟩ := ih hrest
        exact ⟨q, List.mem_cons_of_mem p hq, hread⟩
      · cases hread : p.read with
        | error e =>
            rw [hread] at hp
            cases hp
        | ok read =>
            rw [hread] at hp
            cases hp
            exact ⟨p, List.mem_cons_self, hread⟩

/-- What happens at one of some polls: it is a poll in the state that the earlier ones lead to. -/
theorem watch_at
    (pg : Playground) {w : Watch} {polls : List Poll} {i : Nat} {p : Poll}
    (h : polls[i]? = some p) :
    (pg.watch w polls).1[i]? = some (pg.poll (pg.watch w (polls.take i)).2 p).1 ∧
      (pg.watch w (polls.take (i + 1))).2 = (pg.poll (pg.watch w (polls.take i)).2 p).2 := by
  induction polls generalizing w i with
  | nil =>
      cases h
  | cons first rest ih =>
      cases i with
      | zero =>
          cases h
          exact ⟨rfl, rfl⟩
      | succ i =>
          exact ih h

end Playground

open Playground in
/-- For any polls that read maps, on whose texts the digest does not collide: a snapshot is rendered
if and only if it is the first one or differs as a map from the one read last.  It is then rendered
with the store that the earlier polls left, and otherwise nothing is printed and nothing changes; a
poll that cannot read renders nothing.  The texts are the same for the same map in any order, and
differ for different maps. -/
theorem renders_exactly_on_change
    (pg : Playground) (store : Option Store) (polls : List Poll)
    (hmaps : ∀ p ∈ polls, ∀ files, p.read = .ok files → files.IsMap)
    (hdigest : ∀ p ∈ polls, ∀ q ∈ polls, ∀ files files', p.read = .ok files → q.read = .ok files' →
      Digest.sha256 files.encode = Digest.sha256 files'.encode → files.encode = files'.encode) :
    (∀ i p files, polls[i]? = some p → p.read = .ok files →
      let before := (pg.watch { store } (polls.take i)).2
      let rendered := pg.render p.orders files before.store
      (Changed (polls.take i) files →
        (pg.watch { store } polls).1[i]? = some (some (shown rendered.1)) ∧
          (pg.watch { store } (polls.take (i + 1))).2.store = rendered.2) ∧
      (¬ Changed (polls.take i) files →
        (pg.watch { store } polls).1[i]? = some none ∧
          (pg.watch { store } (polls.take (i + 1))).2 = before)) ∧
    (∀ i p e, polls[i]? = some p → p.read = .error e →
      (pg.watch { store } polls).1[i]? =
          some (some (.errors (utf8 "playground: read error: " ++ e.message ++ utf8 "\n"))) ∧
        (pg.watch { store } (polls.take (i + 1))).2 = (pg.watch { store } (polls.take i)).2) ∧
    ∀ files files' : Snapshot, files.IsMap → files'.IsMap →
      (files.encode = files'.encode ↔ files.Same files') := by
  refine ⟨fun i p files hi hread => ?_, fun i p e hi hread => ?_,
    fun files files' => Snapshot.encode_eq_iff⟩
  · intro before rendered
    have hmem : p ∈ polls := List.mem_of_getElem? hi
    obtain ⟨houtput, hstate⟩ := watch_at pg (w := { store }) hi
    -- The digest that is kept decides, and it is that of the snapshot read last.
    have hkept : before.last = (lastRead (polls.take i)).map Snapshot.digest := by
      rw [last_watch, Option.or_none]
    have hsame : before.last = some files.digest ↔ ¬ Changed (polls.take i) files := by
      rw [hkept, Option.map_eq_some_iff, Changed, not_forall]
      refine exists_congr fun previous => ?_
      rw [Classical.not_imp, Classical.not_not]
      refine and_congr_right fun hprevious => ?_
      obtain ⟨q, hq, hread'⟩ := mem_of_lastRead hprevious
      have hmem' := List.mem_of_mem_take hq
      rw [← Snapshot.encode_eq_iff (hmaps q hmem' _ hread') (hmaps p hmem _ hread)]
      exact ⟨hdigest q hmem' p hmem _ _ hread' hread, fun h => congrArg Digest.sha256 h⟩
    constructor
    · intro hchanged
      have hother : before.last ≠ some files.digest := fun h => hsame.1 h hchanged
      rw [houtput, hstate, poll_of_other hread hother]
      exact ⟨rfl, rfl⟩
    · intro hunchanged
      rw [houtput, hstate, poll_of_last hread (hsame.2 hunchanged)]
      exact ⟨rfl, rfl⟩
  · obtain ⟨houtput, hstate⟩ := watch_at pg (w := { store }) hi
    rw [houtput, hstate, poll_of_unread hread]
    exact ⟨rfl, rfl⟩

/-- A partial and the page that calls it. -/
def partialAndPage : Snapshot :=
  [(utf8 "p/a.hbx", utf8 "1"), (utf8 "page.hbx", utf8 "<p>\x7b\x7b> a\x7d\x7d</p>")]

/-- The same files in another order. -/
def pageAndPartial : Snapshot := partialAndPage.reverse

/-- The partial alone, with content that reads like the text of the page behind it. -/
def partialAlone : Snapshot :=
  [(utf8 "p/a.hbx", utf8 "1page.hbx\x0014\x00<p>\x7b\x7b> a\x7d\x7d</p>")]

/-- The files are read, then they cannot be read, then they are read in another order, and then the
page is gone. -/
def pagePolls : List Playground.Poll :=
  [⟨.ok partialAndPage, {}⟩, ⟨.error (.file ⟨.openFile, utf8 "page.hbx", .missing⟩), {}⟩,
    ⟨.ok pageAndPartial, {}⟩, ⟨.ok partialAlone, {}⟩]

theorem read_of_pagePolls
    {p : Playground.Poll} {files : Snapshot}
    (hp : p ∈ pagePolls)
    (h : p.read = .ok files) :
    files = partialAndPage ∨ files = pageAndPartial ∨ files = partialAlone := by
  simp only [pagePolls, List.mem_cons, List.not_mem_nil, or_false] at hp
  rcases hp with rfl | rfl | rfl | rfl <;> cases h <;> simp

theorem encode_pageAndPartial :
    pageAndPartial.encode = partialAndPage.encode := by
  have hsorted : Datum.sorted pageAndPartial = Datum.sorted partialAndPage :=
    Datum.sorted_eq_of_perm (by decide) (List.reverse_perm partialAndPage)
  rw [Snapshot.encode_eq_flatMap, Snapshot.encode_eq_flatMap, hsorted]

theorem sha256_partialAlone :
    Digest.sha256 partialAlone.encode ≠ Digest.sha256 partialAndPage.encode := by
  have hpage : Datum.sorted partialAndPage = partialAndPage :=
    List.mergeSort_of_pairwise (by decide)
  have halone : Datum.sorted partialAlone = partialAlone :=
    List.mergeSort_of_pairwise (by decide)
  rw [Snapshot.encode_eq_flatMap, Snapshot.encode_eq_flatMap, hpage, halone]
  decide +kernel

/-- Files that are read in another order after a failed poll are not rendered again, and they are
when one of them is gone, even though the other holds its text. -/
theorem renders_exactly_on_change_pagePolls :
    let pg : Playground := { template := utf8 "page.hbx", partials := utf8 "p" }
    (∀ p ∈ pagePolls, ∀ files, p.read = .ok files → files.IsMap) ∧
      (∀ p ∈ pagePolls, ∀ q ∈ pagePolls, ∀ files files', p.read = .ok files →
        q.read = .ok files' → Digest.sha256 files.encode = Digest.sha256 files'.encode →
          files.encode = files'.encode) ∧
      (pg.watch {} pagePolls).1[2]? = some none ∧
      ∃ output, (pg.watch {} pagePolls).1[3]? = some (some output) := by
  intro pg
  have hfirst : partialAndPage.IsMap := by constructor <;> decide
  have hthird : pageAndPartial.IsMap := by constructor <;> decide
  have hlast : partialAlone.IsMap := by constructor <;> decide
  have hmaps : ∀ p ∈ pagePolls, ∀ files, p.read = .ok files → files.IsMap := by
    intro p hp files h
    rcases read_of_pagePolls hp h with rfl | rfl | rfl
    · exact hfirst
    · exact hthird
    · exact hlast
  have hdigest : ∀ p ∈ pagePolls, ∀ q ∈ pagePolls, ∀ files files', p.read = .ok files →
      q.read = .ok files' → Digest.sha256 files.encode = Digest.sha256 files'.encode →
        files.encode = files'.encode := by
    intro p hp q hq files files' hfiles hfiles' h
    have hother := sha256_partialAlone
    rcases read_of_pagePolls hp hfiles with rfl | rfl | rfl <;>
      rcases read_of_pagePolls hq hfiles' with rfl | rfl | rfl <;>
        simp_all [encode_pageAndPartial]
  obtain ⟨hpolls, _⟩ := renders_exactly_on_change pg none pagePolls hmaps hdigest
  have hsame : partialAndPage.Same pageAndPartial :=
    (Snapshot.encode_eq_iff hfirst hthird).1 encode_pageAndPartial.symm
  have hchanged : Playground.Changed (pagePolls.take 3) partialAlone := by
    intro previous hprevious hsame
    cases hprevious
    have hencode := (Snapshot.encode_eq_iff hthird hlast).2 hsame
    rw [encode_pageAndPartial] at hencode
    exact sha256_partialAlone (congrArg Digest.sha256 hencode.symm)
  refine ⟨hmaps, hdigest, ?_, ?_⟩
  · exact ((hpolls 2 _ _ rfl rfl).2 fun hunread => hunread _ rfl hsame).1
  · exact ⟨_, ((hpolls 3 _ _ rfl rfl).1 hchanged).1⟩

end Stencil
