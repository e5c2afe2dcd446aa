import Mathlib.Data.List.Nodup
import Stencil.Datum
import Stencil.Proofs.Fields

/-!
# Names in order

The order of byte strings is linear, so named values with distinct names have one arrangement in the
order of their names, whatever order they are given in.

Results: `Datum.sorted_eq_of_perm` and `Datum.sorted_eq_of_lookup`.
-/

namespace Stencil

namespace Bytes

theorem le_refl
    (s : Bytes) :
    le s s = true := by
  induction s with
  | nil =>
      rfl
  | cons a s ih =>
      simp [le, ih]

theorem le_cons_iff
    {a b : UInt8} {s t : Bytes} :
    le (a :: s) (b :: t) = true ↔ a < b ∨ a = b ∧ le s t = true := by
  simp [le]

theorem le_trans
    {s t u : Bytes}
    (hst : le s t = true)
    (htu : le t u = true) :
    le s u = true := by
  induction s generalizing t u with
  | nil =>
      rfl
  | cons a s ih =>
      cases t with
      | nil =>
          cases hst
      | cons b t =>
          cases u with
          | nil =>
              cases htu
          | cons c u =>
              rw [le_cons_iff] at hst htu ⊢
              rcases hst with hab | ⟨rfl, hst⟩
              · rcases htu with hbc | ⟨rfl, _⟩
                · exact Or.inl (UInt8.lt_trans hab hbc)
                · exact Or.inl hab
              · rcases htu with hbc | ⟨rfl, htu⟩
                · exact Or.inl hbc
                · exact Or.inr ⟨rfl, ih hst htu⟩

theorem le_total
    (s t : Bytes) :
    (le s t || le t s) = true := by
  rw [Bool.or_eq_true]
  induction s generalizing t with
  | nil =>
      exact Or.inl rfl
  | cons a s ih =>
      cases t with
      | nil =>
          exact Or.inr rfl
      | cons b t =>
          rw [le_cons_iff, le_cons_iff]
          rcases Nat.lt_trichotomy a.toNat b.toNat with hab | hab | hba
          · exact Or.inl (Or.inl hab)
          · obtain rfl := UInt8.toNat_inj.1 hab
            rcases ih t with hst | hts
            · exact Or.inl (Or.inr ⟨rfl, hst⟩)
            · exact Or.inr (Or.inr ⟨rfl, hts⟩)
          · exact Or.inr (Or.inl hba)

theorem le_antisymm
    {s t : Bytes}
    (hst : le s t = true)
    (hts : le t s = true) :
    s = t := by
  induction s generalizing t with
  | nil =>
      cases t with
      | nil =>
          rfl
      | cons b t =>
          cases hts
  | cons a s ih =>
      cases t with
      | nil =>
          cases hst
      | cons b t =>
          rw [le_cons_iff] at hst hts
          rcases hst with hab | ⟨rfl, hst⟩
          · rcases hts with hba | ⟨rfl, _⟩
            · exact absurd (UInt8.lt_trans hab hba) (UInt8.lt_irrefl a)
            · exact absurd hab (UInt8.lt_irrefl b)
          · rcases hts with haa | ⟨_, hts⟩
            · exact absurd haa (UInt8.lt_irrefl a)
            · rw [ih hst hts]

end Bytes

section Entries

variable {α : Type}

/-- Under distinct names the same is found in any order of the entries. -/
theorem Fields.lookup_eq_of_perm
    {fields fields' : List (Bytes × α)}
    (h : (fields.map Prod.fst).Nodup)
    (hperm : fields.Perm fields')
    (name : Bytes) :
    fields.lookup name = fields'.lookup name := by
  refine Option.ext fun value => ?_
  rw [lookup_eq_some_iff_mem h, lookup_eq_some_iff_mem ((hperm.map Prod.fst).nodup_iff.1 h),
    hperm.mem_iff]

/-- Entries with distinct names under which the same is found are the same up to order. -/
theorem Fields.perm_of_lookup_eq
    {fields fields' : List (Bytes × α)}
    (h : (fields.map Prod.fst).Nodup)
    (h' : (fields'.map Prod.fst).Nodup)
    (hlookup : ∀ name, fields.lookup name = fields'.lookup name) :
    fields.Perm fields' := by
  refine (List.perm_ext_iff_of_nodup (List.Nodup.of_map _ h) (List.Nodup.of_map _ h')).2 ?_
  rintro ⟨key, value⟩
  rw [← lookup_eq_some_iff_mem h, ← lookup_eq_some_iff_mem h', hlookup]

namespace Datum

theorem sorted_perm
    (entries : List (Bytes × α)) :
    (sorted entries).Perm entries :=
  List.mergeSort_perm _ _

theorem pairwise_sorted
    (entries : List (Bytes × α)) :
    (sorted entries).Pairwise fun a b => Bytes.le a.1 b.1 = true :=
  @List.pairwise_mergeSort _ (fun a b => Bytes.le a.1 b.1) (fun _ _ _ => Bytes.le_trans)
    (fun a b => Bytes.le_total a.1 b.1) entries

/-- Entries with distinct names have one arrangement in order. -/
theorem sorted_eq_of_perm
    {entries entries' : List (Bytes × α)}
    (hdistinct : (entries.map Prod.fst).Nodup)
    (h : entries.Perm entries') :
    sorted entries = sorted entries' := by
  refine List.Perm.eq_of_pairwise (fun a b ha hb hab hba => ?_) (pairwise_sorted entries)
    (pairwise_sorted entries') (((sorted_perm entries).trans h).trans (sorted_perm entries').symm)
  have hname := Bytes.le_antisymm hab hba
  have ha := (sorted_perm entries).mem_iff.1 ha
  have hb := h.mem_iff.2 ((sorted_perm entries').mem_iff.1 hb)
  exact List.inj_on_of_nodup_map hdistinct ha hb hname

/-- Entries with distinct names under which the same is found have one arrangement in order. -/
theorem sorted_eq_of_lookup
    {entries entries' : List (Bytes × α)}
    (hdistinct : (entries.map Prod.fst).Nodup)
    (hdistinct' : (entries'.map Prod.fst).Nodup)
    (h : ∀ name, entries.lookup name = entries'.lookup name) :
    sorted entries = sorted entries' :=
  sorted_eq_of_perm hdistinct (Fields.perm_of_lookup_eq hdistinct hdistinct' h)

end Datum

end Entries

end Stencil
