import Stencil.Proofs.Sorted
import Stencil.Store

/-!
# Tables in order

The tables of a store hold their keys in strictly increasing order, and refuse a key that is empty
or too long.

Results: `Table.Orderly.insert`, an entry put into a table keeps the order, `Table.lookup_insertEach`,
what is there after many entries, and `Table.Orderly.insertEach_eq_self_iff`, entries change nothing
exactly when all of them are there already.
-/

namespace Stencil

namespace Table

/-- The keys that are not refused. -/
def Accepts (key : Bytes) : Prop := key ≠ [] ∧ key.length ≤ maxKey

instance (key : Bytes) : Decidable (Accepts key) := inferInstanceAs (Decidable (_ ∧ _))

/-- Entries with strictly increasing keys, none of which is refused. -/
structure Orderly (t : Table) : Prop where
  increasing : t.Pairwise fun a b => Bytes.le b.1 a.1 = false
  accepted : ∀ entry ∈ t, Accepts entry.1

/-- Entries put into a table one after the other. -/
def insertEach (entries : List (Bytes × Bytes)) (t : Table) : Table :=
  entries.foldl (fun t entry => insert entry.1 entry.2 t) t

variable {key value name : Bytes} {t : Table} {entries : List (Bytes × Bytes)}

theorem insertEach_cons
    (entry : Bytes × Bytes) (entries : List (Bytes × Bytes)) (t : Table) :
    insertEach (entry :: entries) t = insertEach entries (insert entry.1 entry.2 t) :=
  rfl

theorem put_of_accepts
    (h : Accepts key)
    (value : Bytes) (t : Table) :
    put key value t = .ok (insert key value t) := by
  have hempty : key.isEmpty = false := List.isEmpty_eq_false_iff.2 h.1
  have hlong : ¬ maxKey < key.length := Nat.not_lt.2 h.2
  simp [put, hempty, hlong]

/-- A key is refused for the same reason by every table. -/
theorem put_of_not_accepts
    (h : ¬ Accepts key) :
    ∃ e, ∀ value t, put key value t = .error e := by
  by_cases hempty : key = []
  · exact ⟨.keyRequired, by simp [put, hempty]⟩
  · have hlong : maxKey < key.length := by
      apply Nat.lt_of_not_le
      intro hshort
      exact h ⟨hempty, hshort⟩
    exact ⟨.keyTooLarge, by simp [put, hempty, hlong]⟩

theorem lookup_insert_self
    (key value : Bytes) (t : Table) :
    (insert key value t).lookup key = some value := by
  induction t with
  | nil =>
      simp [insert]
  | cons entry rest ih =>
      obtain ⟨k, v⟩ := entry
      simp only [insert]
      split
      · simp
      · next hk =>
          split
          · simp
          · rw [List.lookup_cons, beq_false_of_ne (Ne.symm hk)]
            exact ih

theorem lookup_insert_of_ne
    (hname : name ≠ key)
    (value : Bytes) (t : Table) :
    (insert key value t).lookup name = t.lookup name := by
  have hne : (name == key) = false := beq_false_of_ne hname
  induction t with
  | nil =>
      simp [insert, List.lookup_cons, hne]
  | cons entry rest ih =>
      obtain ⟨k, v⟩ := entry
      simp only [insert]
      split
      · next hk =>
          rw [List.lookup_cons, List.lookup_cons, hk, hne]
      · split
        · rw [List.lookup_cons, hne]
        · rw [List.lookup_cons, List.lookup_cons, ih]

theorem mem_insert
    {entry : Bytes × Bytes}
    (h : entry ∈ insert key value t) :
    entry = (key, value) ∨ entry ∈ t := by
  induction t with
  | nil =>
      exact Or.inl (List.mem_singleton.1 h)
  | cons first rest ih =>
      obtain ⟨k, v⟩ := first
      simp only [insert] at h
      split at h
      · rcases List.mem_cons.1 h with hentry | hrest
        · exact Or.inl hentry
        · exact Or.inr (List.mem_cons_of_mem _ hrest)
      · split at h
        · exact List.mem_cons.1 h
        · rcases List.mem_cons.1 h with hentry | hrest
          · exact Or.inr (List.mem_cons.2 (Or.inl hentry))
          · rcases ih hrest with hentry | hrest
            · exact Or.inl hentry
            · exact Or.inr (List.mem_cons_of_mem _ hrest)

/-- The new entry stands before all greater keys and behind all smaller ones. -/
theorem increasing_insert
    (h : t.Pairwise fun a b => Bytes.le b.1 a.1 = false)
    (key value : Bytes) :
    (insert key value t).Pairwise fun a b => Bytes.le b.1 a.1 = false := by
  induction t with
  | nil =>
      exact List.pairwise_singleton _ _
  | cons first rest ih =>
      obtain ⟨k, v⟩ := first
      obtain ⟨hfirst, hrest⟩ := List.pairwise_cons.1 h
      simp only [insert]
      split
      · next hk =>
          subst hk
          exact List.pairwise_cons.2 ⟨hfirst, hrest⟩
      · next hk =>
          split
          · next hle =>
              refine List.pairwise_cons.2 ⟨fun entry hentry => ?_, h⟩
              rw [← Bool.not_eq_true]
              intro hback
              rcases List.mem_cons.1 hentry with rfl | hmem
              · exact hk (Bytes.le_antisymm hback hle)
              · have habove := hfirst entry hmem
                rw [Bytes.le_trans hback hle] at habove
                cases habove
          · next hle =>
              refine List.pairwise_cons.2 ⟨fun entry hentry => ?_, ih hrest⟩
              rcases mem_insert hentry with rfl | hmem
              · exact Bool.not_eq_true _ ▸ hle
              · exact hfirst entry hmem

theorem Orderly.insert
    (h : t.Orderly)
    (hkey : Accepts key)
    (value : Bytes) :
    (Table.insert key value t).Orderly where
  increasing := increasing_insert h.increasing key value
  accepted := by
    intro entry hentry
    rcases mem_insert hentry with rfl | hmem
    · exact hkey
    · exact h.accepted entry hmem

theorem Orderly.nodup
    (h : t.Orderly) :
    (t.map Prod.fst).Nodup := by
  refine List.pairwise_map.2 (h.increasing.imp ?_)
  intro a b hab heq
  rw [heq, Bytes.le_refl] at hab
  cases hab

/-- An entry that is there already changes nothing. -/
theorem Orderly.insert_of_lookup
    (h : t.Orderly)
    (hlookup : t.lookup key = some value) :
    Table.insert key value t = t := by
  have hincreasing := h.increasing
  clear h
  induction t with
  | nil =>
      cases hlookup
  | cons first rest ih =>
      obtain ⟨k, v⟩ := first
      obtain ⟨hfirst, hrest⟩ := List.pairwise_cons.1 hincreasing
      rw [List.lookup_cons] at hlookup
      simp only [Table.insert]
      split
      · next hk =>
          subst hk
          rw [beq_self_eq_true] at hlookup
          cases hlookup
          rfl
      · next hk =>
          rw [beq_false_of_ne (Ne.symm hk)] at hlookup
          obtain ⟨before, behind, hsplit, _⟩ := List.lookup_eq_some_iff.1 hlookup
          have hbehind := hfirst (key, value) (by simp [hsplit])
          rw [hbehind, if_neg Bool.false_ne_true, ih hlookup hrest]

theorem Orderly.insertEach
    (h : t.Orderly)
    (hkeys : ∀ entry ∈ entries, Accepts entry.1) :
    (Table.insertEach entries t).Orderly := by
  induction entries generalizing t with
  | nil =>
      exact h
  | cons entry rest ih =>
      obtain ⟨hentry, hrest⟩ := List.forall_mem_cons.1 hkeys
      exact ih (h.insert hentry entry.2) hrest

theorem mem_keys_insert
    (key value : Bytes) (t : Table) (name : Bytes) :
    name ∈ (insert key value t).map Prod.fst ↔ name = key ∨ name ∈ t.map Prod.fst := by
  induction t with
  | nil =>
      simp [insert]
  | cons first rest ih =>
      obtain ⟨k, v⟩ := first
      simp only [insert]
      split
      · next hk =>
          simp [hk]
      · split
        · simp
        · rw [List.map_cons, List.mem_cons, ih, List.map_cons, List.mem_cons]
          exact or_left_comm

theorem mem_keys_insertEach
    (entries : List (Bytes × Bytes)) (t : Table) (name : Bytes) :
    name ∈ (insertEach entries t).map Prod.fst ↔
      name ∈ entries.map Prod.fst ∨ name ∈ t.map Prod.fst := by
  induction entries generalizing t with
  | nil =>
      simp [insertEach]
  | cons entry rest ih =>
      rw [insertEach_cons, ih, mem_keys_insert, List.map_cons, List.mem_cons]
      exact or_left_comm.trans or_assoc.symm

/-- Where every key comes once, it has its new value, and every other key the one before. -/
theorem lookup_insertEach
    (hdistinct : (entries.map Prod.fst).Nodup)
    (t : Table) (name : Bytes) :
    (insertEach entries t).lookup name = (entries.lookup name).or (t.lookup name) := by
  induction entries generalizing t with
  | nil =>
      rfl
  | cons entry rest ih =>
      obtain ⟨hnew, hrest⟩ := List.nodup_cons.1 hdistinct
      rw [insertEach_cons, ih hrest, List.lookup_cons]
      by_cases hname : name = entry.1
      · subst hname
        rw [Fields.lookup_eq_none_of_not_mem hnew, lookup_insert_self, beq_self_eq_true]
        rfl
      · rw [lookup_insert_of_ne hname, beq_false_of_ne hname]

/-- Entries change nothing exactly when all of them are there already. -/
theorem Orderly.insertEach_eq_self_iff
    (h : t.Orderly)
    (hdistinct : (entries.map Prod.fst).Nodup) :
    Table.insertEach entries t = t ↔ ∀ entry ∈ entries, t.lookup entry.1 = some entry.2 := by
  constructor
  · intro hsame entry hentry
    have hlookup := lookup_insertEach hdistinct t entry.1
    rw [hsame, (Fields.lookup_eq_some_iff_mem hdistinct).2 hentry] at hlookup
    exact hlookup
  · intro hthere
    clear hdistinct
    induction entries with
    | nil =>
        rfl
    | cons entry rest ih =>
        obtain ⟨hentry, hrest⟩ := List.forall_mem_cons.1 hthere
        rw [insertEach_cons, h.insert_of_lookup hentry]
        exact ih hrest

end Table

namespace Store

/-- Both tables are in order. -/
structure Orderly (s : Store) : Prop where
  partials : s.partials.Orderly
  programs : s.programs.Orderly

/-- The store with partials and emitted files put into it. -/
def keep (saved emitted : List (Bytes × Bytes)) (s : Store) : Store :=
  ⟨Table.insertEach saved s.partials, Table.insertEach emitted s.programs⟩

theorem setPartial_of_accepts
    {name : Bytes}
    (h : Table.Accepts name)
    (source : Bytes) (s : Store) :
    s.setPartial name source = .ok (s.keep [(name, source)] []) := by
  rw [setPartial, Table.put_of_accepts h]
  rfl

theorem setProgram_of_accepts
    {name : Bytes}
    (h : Table.Accepts name)
    (code : Bytes) (s : Store) :
    s.setProgram name code = .ok (s.keep [] [(name, code)]) := by
  rw [setProgram, Table.put_of_accepts h]
  rfl

theorem Orderly.keep
    {s : Store} {saved emitted : List (Bytes × Bytes)}
    (h : s.Orderly)
    (hsaved : ∀ p ∈ saved, Table.Accepts p.1)
    (hemitted : ∀ c ∈ emitted, Table.Accepts c.1) :
    (s.keep saved emitted).Orderly :=
  ⟨h.partials.insertEach hsaved, h.programs.insertEach hemitted⟩

end Store

end Stencil
