import Stencil.Value

/-!
# Named values set one after the other

What is found under a name in a list of named values after some names were set, one at a time or
many in order.
-/

namespace Stencil
namespace Fields

variable {α β : Type}

theorem lookup_insert_self
    (key : Bytes) (value : α) (fields : List (Bytes × α)) :
    (insert key value fields).lookup key = some value := by
  induction fields with
  | nil =>
      simp [insert]
  | cons entry rest ih =>
      obtain ⟨k, v⟩ := entry
      by_cases hk : k = key
      · simp [insert, hk]
      · have hne : (key == k) = false := by simpa using fun h => hk h.symm
        simp [insert, hk, List.lookup_cons, hne, ih]

theorem lookup_insert_of_ne
    {key name : Bytes}
    (hname : name ≠ key)
    (value : α) (fields : List (Bytes × α)) :
    (insert key value fields).lookup name = fields.lookup name := by
  have hne : (name == key) = false := by simpa using hname
  induction fields with
  | nil =>
      simp [insert, List.lookup_cons, hne]
  | cons entry rest ih =>
      obtain ⟨k, v⟩ := entry
      by_cases hk : k = key
      · simp [insert, hk, List.lookup_cons, hne]
      · simp [insert, hk, List.lookup_cons, ih]

/-- An entry after one name was set is that name with its value, or was there before. -/
theorem mem_insert
    {key : Bytes} {value : α} {fields : List (Bytes × α)} {entry : Bytes × α}
    (h : entry ∈ insert key value fields) :
    entry = (key, value) ∨ entry ∈ fields := by
  induction fields with
  | nil =>
      exact Or.inl (List.mem_singleton.1 h)
  | cons first rest ih =>
      obtain ⟨k, v⟩ := first
      by_cases hk : k = key
      · subst hk
        simp only [insert, if_true] at h
        rcases List.mem_cons.1 h with hfirst | hrest
        · exact Or.inl hfirst
        · exact Or.inr (List.mem_cons_of_mem _ hrest)
      · simp only [insert, hk, if_false] at h
        rcases List.mem_cons.1 h with hfirst | hrest
        · exact Or.inr (hfirst ▸ List.mem_cons_self)
        · rcases ih hrest with hset | hbefore
          · exact Or.inl hset
          · exact Or.inr (List.mem_cons_of_mem _ hbefore)

theorem isSome_lookup_iff
    (fields : List (Bytes × α)) (key : Bytes) :
    (fields.lookup key).isSome = true ↔ key ∈ fields.map Prod.fst := by
  rw [List.lookup_isSome_iff, List.mem_map]
  exact exists_congr fun p => and_congr_right fun _ => beq_iff_eq.trans eq_comm

theorem lookup_eq_none_of_not_mem
    {fields : List (Bytes × α)} {key : Bytes}
    (h : key ∉ fields.map Prod.fst) :
    fields.lookup key = none := by
  rwa [← isSome_lookup_iff, Bool.not_eq_true, Option.isSome_eq_false_iff,
    Option.isNone_iff_eq_none] at h

/-- Setting a name loses none. -/
theorem isSome_lookup_insert
    (key : Bytes) (value : α) (fields : List (Bytes × α)) (name : Bytes) :
    ((insert key value fields).lookup name).isSome = true ↔
      name = key ∨ (fields.lookup name).isSome = true := by
  by_cases hname : name = key
  · subst hname
    simp [lookup_insert_self]
  · simp [lookup_insert_of_ne hname, hname]

theorem insertAll_cons
    (pair : Bytes × α) (pairs fields : List (Bytes × α)) :
    insertAll (pair :: pairs) fields = insertAll pairs (insert pair.1 pair.2 fields) :=
  rfl

/-- An entry after names were set is one of those set, or was there before. -/
theorem mem_insertAll
    {pairs fields : List (Bytes × α)} {entry : Bytes × α}
    (h : entry ∈ insertAll pairs fields) :
    entry ∈ pairs ∨ entry ∈ fields := by
  induction pairs generalizing fields with
  | nil =>
      exact Or.inr h
  | cons pair rest ih =>
      rw [insertAll_cons] at h
      rcases ih h with hrest | hbefore
      · exact Or.inl (List.mem_cons_of_mem pair hrest)
      · rcases mem_insert hbefore with hset | hfields
        · exact Or.inl (hset ▸ List.mem_cons_self)
        · exact Or.inr hfields

/-- The names that are found after some were set. -/
theorem isSome_lookup_insertAll
    (pairs fields : List (Bytes × α)) (name : Bytes) :
    ((insertAll pairs fields).lookup name).isSome = true ↔
      name ∈ pairs.map Prod.fst ∨ (fields.lookup name).isSome = true := by
  induction pairs generalizing fields with
  | nil =>
      simp [insertAll]
  | cons pair rest ih =>
      rw [insertAll_cons, ih, isSome_lookup_insert, List.map_cons, List.mem_cons]
      constructor
      · rintro (hrest | hkey | hfields)
        · exact Or.inl (Or.inr hrest)
        · exact Or.inl (Or.inl hkey)
        · exact Or.inr hfields
      · rintro ((hkey | hrest) | hfields)
        · exact Or.inr (Or.inl hkey)
        · exact Or.inl hrest
        · exact Or.inr (Or.inr hfields)

theorem map_insert
    (f : α → β) (key : Bytes) (value : α) (fields : List (Bytes × α)) :
    (insert key value fields).map (fun p => (p.1, f p.2)) =
      insert key (f value) (fields.map fun p => (p.1, f p.2)) := by
  induction fields with
  | nil =>
      rfl
  | cons first rest ih =>
      simp only [insert, List.map_cons]
      split
      · rfl
      · rw [List.map_cons, ih]

theorem map_insertAll
    (f : α → β) (pairs fields : List (Bytes × α)) :
    (insertAll pairs fields).map (fun p => (p.1, f p.2)) =
      insertAll (pairs.map fun p => (p.1, f p.2)) (fields.map fun p => (p.1, f p.2)) := by
  induction pairs generalizing fields with
  | nil =>
      rfl
  | cons pair rest ih =>
      rw [insertAll_cons, ih, map_insert, List.map_cons, insertAll_cons]

theorem lookup_map
    (f : α → β) (fields : List (Bytes × α)) (key : Bytes) :
    (fields.map fun p => (p.1, f p.2)).lookup key = (fields.lookup key).map f := by
  induction fields with
  | nil =>
      rfl
  | cons first rest ih =>
      rw [List.map_cons, List.lookup_cons, List.lookup_cons, ih]
      split <;> rfl

/-- What is found under a name after some were set: the value that was set last, or else the one
that was there before. -/
theorem lookup_insertAll
    (pairs fields : List (Bytes × α)) (name : Bytes) :
    (insertAll pairs fields).lookup name = (pairs.reverse.lookup name).or (fields.lookup name) := by
  induction pairs generalizing fields with
  | nil =>
      rfl
  | cons pair rest ih =>
      obtain ⟨key, value⟩ := pair
      rw [insertAll_cons, ih, List.reverse_cons, List.lookup_append, Option.or_assoc]
      congr 1
      by_cases hname : name = key
      · subst hname
        simp [lookup_insert_self]
      · have hne : (name == key) = false := by simpa using hname
        simp [lookup_insert_of_ne hname, List.lookup_cons, hne]

/-- Setting a name leaves the names distinct. -/
theorem nodup_insert
    {fields : List (Bytes × α)}
    (h : (fields.map Prod.fst).Nodup)
    (key : Bytes) (value : α) :
    ((insert key value fields).map Prod.fst).Nodup := by
  induction fields with
  | nil =>
      simp [insert]
  | cons first rest ih =>
      obtain ⟨k, v⟩ := first
      obtain ⟨hk, hrest⟩ := List.nodup_cons.1 h
      simp only [insert]
      split
      · exact h
      · next hne =>
          refine List.nodup_cons.2 ⟨fun hmem => ?_, ih hrest⟩
          obtain ⟨entry, hentry, hname⟩ := List.mem_map.1 hmem
          rcases mem_insert hentry with rfl | hold
          · exact hne hname.symm
          · exact hk (List.mem_map.2 ⟨entry, hold, hname⟩)

theorem nodup_insertAll
    {fields : List (Bytes × α)}
    (h : (fields.map Prod.fst).Nodup)
    (pairs : List (Bytes × α)) :
    ((insertAll pairs fields).map Prod.fst).Nodup := by
  induction pairs generalizing fields with
  | nil =>
      exact h
  | cons pair rest ih =>
      exact ih (nodup_insert h pair.1 pair.2)

theorem mem_of_lookup
    {fields : List (Bytes × α)} {key : Bytes} {value : α}
    (h : fields.lookup key = some value) :
    (key, value) ∈ fields := by
  obtain ⟨before, after, rfl, _⟩ := List.lookup_eq_some_iff.1 h
  simp

/-- Under distinct names exactly the entries are found. -/
theorem lookup_eq_some_iff_mem
    {fields : List (Bytes × α)}
    (h : (fields.map Prod.fst).Nodup)
    {key : Bytes} {value : α} :
    fields.lookup key = some value ↔ (key, value) ∈ fields := by
  induction fields with
  | nil =>
      simp
  | cons first rest ih =>
      obtain ⟨k, v⟩ := first
      obtain ⟨hk, hrest⟩ := List.nodup_cons.1 h
      by_cases hkey : key = k
      · subst hkey
        have hnot : (key, value) ∉ rest := fun hmem => hk (List.mem_map.2 ⟨_, hmem, rfl⟩)
        simp [hnot, eq_comm]
      · have hne : (key == k) = false := by simpa using hkey
        simp [List.lookup_cons, hne, ih hrest, hkey]

end Fields
end Stencil
