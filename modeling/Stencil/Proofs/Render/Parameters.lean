import Stencil.Proofs.Fields
import Stencil.Render

/-!
# What a partial reads from its context

A partial called without parameters reads the value that it is called with.  Called with parameters
it reads a record that is made of the listed fields of that value and of the parameters, so a name
under which a value is found but which is not listed is lost.

Only structures have such names: those of the fields that are listed under a tag.

Result: `included_fields_are_the_listed_ones`.
-/

namespace Stencil

namespace Fields

variable {α β : Type}

/-- Where every entry has what its name says, so has every name that is found. -/
theorem lookup_map_names
    (g : Bytes → β) (fields : List (Bytes × α)) (key : Bytes) :
    (fields.map fun f => (f.1, g f.1)).lookup key =
      if key ∈ fields.map Prod.fst then some (g key) else none := by
  induction fields with
  | nil =>
      rfl
  | cons first rest ih =>
      by_cases hkey : key = first.1
      · simp [hkey]
      · have hne : (key == first.1) = false := by simpa using hkey
        simp only [List.map_cons, List.lookup_cons, hne, List.mem_cons, hkey, false_or, ih]

end Fields

/-! ## Values -/

namespace Value

/-- The names that a value lists. -/
def listed : Value → List Bytes
  | record fields _ => fields.map Prod.fst
  | _ => []

/-- The names under which a record has values that it does not list. -/
def unlisted : Value → List Bytes
  | record fields aliases =>
    (aliases.map Prod.fst).filter fun name => !(fields.map Prod.fst).contains name
  | _ => []

theorem mem_unlisted_record
    {fields aliases : List (Bytes × Value)} {key : Bytes} :
    key ∈ (record fields aliases).unlisted ↔
      key ∈ aliases.map Prod.fst ∧ key ∉ fields.map Prod.fst := by
  simp only [unlisted, List.mem_filter, List.contains_eq_mem, Bool.not_eq_true',
    decide_eq_false_iff_not]

/-- From either end, the entries of a value are found under the names that it lists. -/
theorem lookup_reverse_entries
    (v : Value) (key : Bytes) :
    v.entries.reverse.lookup key = if key ∈ v.listed then some (v.get key) else none := by
  cases v with
  | record fields aliases =>
      have hfound := Fields.lookup_map_names (fun name => (field? fields aliases name).getD null)
        fields.reverse key
      rw [List.map_reverse, List.map_reverse] at hfound
      simp only [List.mem_reverse] at hfound
      rw [entries, hfound]
      rfl
  | _ =>
      rfl

theorem get_object
    (pairs : List (Bytes × Value)) (key : Bytes) :
    (object pairs).get key = (pairs.reverse.lookup key).getD null := by
  rw [object, get, field?, Fields.lookup_insertAll]
  simp

theorem mem_listed_object
    (pairs : List (Bytes × Value)) (key : Bytes) :
    key ∈ (object pairs).listed ↔ key ∈ pairs.map Prod.fst := by
  rw [object, listed, ← Fields.isSome_lookup_iff, Fields.isSome_lookup_insertAll]
  simp

/-- What is read from a merge comes from the last record that lists the name. -/
theorem get_merge_object
    (base : Value) (pairs : List (Bytes × Value)) (key : Bytes) :
    (merge [base, object pairs]).get key =
      if key ∈ pairs.map Prod.fst then (object pairs).get key
      else if key ∈ base.listed then base.get key else null := by
  rw [merge, get_object]
  simp only [List.flatMap_cons, List.flatMap_nil, List.append_nil, List.reverse_append,
    List.lookup_append, lookup_reverse_entries, mem_listed_object]
  split
  · rfl
  · split <;> rfl

/-- Under a name that is neither listed nor unlisted nothing is found. -/
theorem get_eq_null
    {fields aliases : List (Bytes × Value)} {key : Bytes}
    (hlisted : key ∉ (record fields aliases).listed)
    (hunlisted : key ∉ (record fields aliases).unlisted) :
    (record fields aliases).get key = null := by
  have haliases : key ∉ aliases.map Prod.fst := fun hmem =>
    hunlisted (mem_unlisted_record.2 ⟨hmem, hlisted⟩)
  rw [get, field?, Fields.lookup_eq_none_of_not_mem hlisted,
    Fields.lookup_eq_none_of_not_mem haliases]
  rfl

end Value

/-- What a partial reads under a name that is no parameter: what its context lists. -/
theorem Render.get_includedData
    {base : Value} {parameters : List (Bytes × Value)} {key : Bytes}
    (hbase : base.kind = .record)
    (hparameters : parameters ≠ [])
    (hkey : key ∉ parameters.map Prod.fst) :
    (includedData base parameters).get key =
      if key ∈ base.unlisted then .null else base.get key := by
  rw [includedData, if_neg (by simpa using hparameters), Value.get_merge_object, if_neg hkey]
  cases base with
  | record fields aliases =>
      by_cases hlisted : key ∈ (Value.record fields aliases).listed
      · have hunlisted : key ∉ (Value.record fields aliases).unlisted := fun h =>
          (Value.mem_unlisted_record.1 h).2 hlisted
        rw [if_pos hlisted, if_neg hunlisted]
      · rw [if_neg hlisted]
        split
        · rfl
        · next hunlisted =>
            exact (Value.get_eq_null hlisted hunlisted).symm
  | _ =>
      cases hbase

/-- What a partial reads under the name of a parameter: the last value passed under it. -/
theorem Render.get_includedData_parameter
    (base : Value) (front back : List (Bytes × Value)) (key : Bytes) (value : Value)
    (hback : key ∉ back.map Prod.fst) :
    (includedData base (front ++ (key, value) :: back)).get key = value := by
  have hmem : key ∈ (front ++ (key, value) :: back).map Prod.fst := by simp
  have hnone : back.reverse.lookup key = none := by
    rw [← List.mem_reverse, ← List.map_reverse] at hback
    exact Fields.lookup_eq_none_of_not_mem hback
  rw [includedData, if_neg (by simp), Value.get_merge_object, if_pos hmem, Value.get_object]
  simp [List.lookup_append, hnone]

/-- A parameter in front of, among or behind others changes nothing that is read under another
name. -/
theorem Render.get_includedData_insert
    {base : Value} {key name : Bytes}
    (hbase : base.kind = .record)
    (front back : List (Bytes × Value))
    (hne : key ≠ name)
    (hunlisted : key ∉ base.unlisted)
    (value : Value) :
    (includedData base (front ++ (name, value) :: back)).get key =
      (includedData base (front ++ back)).get key := by
  have hothers : ∀ parameters : List (Bytes × Value), key ∉ parameters.map Prod.fst →
      (includedData base parameters).get key = base.get key := by
    intro parameters hkey
    by_cases hparameters : parameters = []
    · rw [hparameters]
      rfl
    · rw [get_includedData hbase hparameters hkey, if_neg hunlisted]
  by_cases hkey : key ∈ (front ++ back).map Prod.fst
  · have hlast : ∀ parameters : List (Bytes × Value), key ∈ parameters.map Prod.fst →
        (includedData base parameters).get key = (parameters.reverse.lookup key).getD .null := by
      intro parameters hmem
      have hcons : parameters ≠ [] := by
        rintro rfl
        cases hmem
      rw [includedData, if_neg (by simpa using hcons), Value.get_merge_object, if_pos hmem,
        Value.get_object]
    have hmore : key ∈ (front ++ (name, value) :: back).map Prod.fst := by
      simp only [List.map_append, List.map_cons, List.mem_append, List.mem_cons] at hkey ⊢
      exact hkey.imp_right .inr
    have hskip : (key == name) = false := by simpa using hne
    rw [hlast _ hmore, hlast _ hkey]
    simp [List.lookup_append, List.lookup_cons, hskip]
  · have hmore : key ∉ (front ++ (name, value) :: back).map Prod.fst := by
      simp only [List.map_append, List.map_cons, List.mem_append, List.mem_cons, not_or] at hkey ⊢
      exact ⟨hkey.1, hne, hkey.2⟩
    rw [hothers _ hmore, hothers _ hkey]

/-! ## Structures -/

namespace Datum

/-- The keys that a structure lists. -/
def fieldKeys (fields : List (Bytes × Option Bytes × Datum)) : List Bytes :=
  fields.filterMap fun f => fieldKey? f.1 f.2.1

/-- The names of the fields of a structure that it lists under some key. -/
def fieldNames (fields : List (Bytes × Option Bytes × Datum)) : List Bytes :=
  (fields.filter fun f => (fieldKey? f.1 f.2.1).isSome).map Prod.fst

/-- The keys of an index after fields were added. -/
theorem keys_indexed
    (index : Index) (fields : List (Bytes × Option Bytes × Datum)) :
    (indexed index fields).1 = index.1 ++ fieldKeys fields := by
  induction fields generalizing index with
  | nil =>
      simp [indexed, fieldKeys]
  | cons field rest ih =>
      obtain ⟨name, tag, d⟩ := field
      rw [indexed, ih, indexField]
      cases hkey : fieldKey? name tag with
      | none =>
          simp [fieldKeys, hkey]
      | some key =>
          simp [fieldKeys, hkey]

/-- The names that are found once a field was added. -/
theorem mem_indexField
    (index : Index) (name : Bytes) (tag : Option Bytes) (v : Value) (x : Bytes) :
    x ∈ (indexField index name tag v).2.map Prod.fst ↔
      x ∈ index.2.map Prod.fst ∨ ∃ key, fieldKey? name tag = some key ∧ (x = key ∨ x = name) := by
  rw [indexField]
  cases fieldKey? name tag with
  | none =>
      simp
  | some key =>
      have hset : x ∈ (Fields.insert key v index.2).map Prod.fst ↔
          x = key ∨ x ∈ index.2.map Prod.fst := by
        rw [← Fields.isSome_lookup_iff, Fields.isSome_lookup_insert, Fields.isSome_lookup_iff]
      simp only [Option.some.injEq, exists_eq_left']
      split
      · next htaken =>
          rw [Fields.isSome_lookup_iff] at htaken
          rw [hset]
          constructor
          · rintro (rfl | hold)
            · exact .inr (.inl rfl)
            · exact .inl hold
          · rintro (hold | rfl | rfl)
            · exact .inr hold
            · exact .inl rfl
            · exact hset.1 htaken
      · rw [List.map_append, List.mem_append, hset]
        simp only [List.map_cons, List.map_nil, List.mem_singleton]
        constructor
        · rintro ((rfl | hold) | rfl)
          · exact .inr (.inl rfl)
          · exact .inl hold
          · exact .inr (.inr rfl)
        · rintro (hold | rfl | rfl)
          · exact .inl (.inr hold)
          · exact .inl (.inl rfl)
          · exact .inr rfl

/-- The names that are found once fields were added: their keys and their own names. -/
theorem mem_indexed
    (index : Index) (fields : List (Bytes × Option Bytes × Datum)) (x : Bytes) :
    x ∈ (indexed index fields).2.map Prod.fst ↔
      x ∈ index.2.map Prod.fst ∨ x ∈ fieldKeys fields ∨ x ∈ fieldNames fields := by
  induction fields generalizing index with
  | nil =>
      simp [indexed, fieldKeys, fieldNames]
  | cons field rest ih =>
      obtain ⟨name, tag, d⟩ := field
      rw [indexed, ih, mem_indexField]
      cases hkey : fieldKey? name tag with
      | none =>
          simp [fieldKeys, fieldNames, hkey]
      | some key =>
          simp only [fieldKeys, fieldNames, hkey, List.filterMap_cons, List.filter_cons,
            Option.isSome_some, if_true, List.map_cons, List.mem_cons, Option.some.injEq,
            exists_eq_left']
          constructor
          · rintro ((hold | rfl | rfl) | hkeys | hnames)
            · exact .inl hold
            · exact .inr (.inl (.inl rfl))
            · exact .inr (.inr (.inl rfl))
            · exact .inr (.inl (.inr hkeys))
            · exact .inr (.inr (.inr hnames))
          · rintro (hold | (rfl | hkeys) | rfl | hnames)
            · exact .inl (.inl hold)
            · exact .inl (.inr (.inl rfl))
            · exact .inr (.inl hkeys)
            · exact .inl (.inr (.inr rfl))
            · exact .inr (.inr hnames)

/-- The unlisted names of a structure are those of its fields, unless they are keys as well. -/
theorem mem_unlisted_struct
    (fields : List (Bytes × Option Bytes × Datum)) (x : Bytes) :
    x ∈ (struct fields).toValue.unlisted ↔ x ∈ fieldNames fields ∧ x ∉ fieldKeys fields := by
  have hvalue : (struct fields).toValue = ofIndex (indexed ([], []) fields) := by
    simp [toValue, value?]
  have hkeys := keys_indexed ([], []) fields
  have hfound := mem_indexed ([], []) fields x
  simp only [List.nil_append, List.map_nil, List.not_mem_nil, false_or] at hkeys hfound
  rw [hvalue, ofIndex, Value.mem_unlisted_record, hkeys]
  have hlisted : (fieldKeys fields).map (Prod.fst ∘ fun key =>
      (key, ((indexed ([], []) fields).2.lookup key).getD .null)) = fieldKeys fields :=
    List.map_id' _
  rw [List.map_map, hlisted]
  constructor
  · rintro ⟨hmem, hnot⟩
    obtain ⟨entry, hentry, rfl⟩ := List.mem_map.1 hmem
    have hname := hfound.1 (List.mem_map.2 ⟨entry, (List.mem_filter.1 hentry).1, rfl⟩)
    exact ⟨hname.resolve_left hnot, hnot⟩
  · rintro ⟨hname, hnot⟩
    obtain ⟨entry, hentry, rfl⟩ := List.mem_map.1 (hfound.2 (.inr hname))
    exact ⟨List.mem_map.2 ⟨entry, List.mem_filter.2 ⟨hentry, by simpa using hnot⟩, rfl⟩, hnot⟩

/-- Only structures have names that they do not list. -/
theorem mem_unlisted_toValue
    {d : Datum}
    (hvalue : ∀ v, d ≠ .value v)
    (x : Bytes) :
    x ∈ d.toValue.unlisted ↔
      ∃ fields, d = .struct fields ∧ x ∈ fieldNames fields ∧ x ∉ fieldKeys fields := by
  cases d with
  | struct fields =>
      rw [mem_unlisted_struct]
      constructor
      · exact fun h => ⟨fields, rfl, h⟩
      · rintro ⟨_, ⟨⟩, h⟩
        exact h
  | value v =>
      exact absurd rfl (hvalue v)
  | natural n =>
      have hnumber : ∀ (c : Prop) [Decidable c] (m : Int64) (y : Binary64),
          (if c then Value.int m else .float y).unlisted = [] := by
        intro c _ m y
        split <;> rfl
      simp only [toValue, value?, Option.getD_some, hnumber]
      simp
  | _ =>
      simp [toValue, value?, Value.unlisted, Value.object]

end Datum

/-- A partial that is called with parameters reads under the name of a parameter the last value
passed under it, and under any other name what its context lists; what the context has but does not
list is lost, and nothing else.  A further parameter changes nothing that is not lost already.

A merge lists all that it has, and so do all data of a host program except structures, which do not
list the names of fields with a tag. -/
theorem included_fields_are_the_listed_ones
    (base : Value)
    (parameters : List (Bytes × Value))
    (hbase : base.kind = .record)
    (hparameters : parameters ≠ []) :
    (∀ front key value back, parameters = front ++ (key, value) :: back →
      key ∉ back.map Prod.fst → (Render.includedData base parameters).get key = value) ∧
    (∀ key, key ∉ parameters.map Prod.fst →
      (Render.includedData base parameters).get key =
        if key ∈ base.unlisted then .null else base.get key) ∧
    (∀ front name value back key, parameters = front ++ (name, value) :: back → key ≠ name →
      key ∉ base.unlisted → (Render.includedData base parameters).get key =
        (Render.includedData base (front ++ back)).get key) ∧
    (∀ values, base = .merge values → base.unlisted = []) ∧
    ∀ d : Datum, base = d.toValue → (∀ v, d ≠ .value v) → ∀ key,
      key ∈ base.unlisted ↔ ∃ fields, d = .struct fields ∧
        key ∈ Datum.fieldNames fields ∧ key ∉ Datum.fieldKeys fields := by
  refine ⟨?_, fun key => Render.get_includedData hbase hparameters, ?_, ?_, ?_⟩
  · rintro front key value back rfl hback
    exact Render.get_includedData_parameter base front back key value hback
  · rintro front name value back key rfl hne hunlisted
    exact Render.get_includedData_insert hbase front back hne hunlisted value
  · rintro values rfl
    rfl
  · rintro d rfl hvalue
    exact Datum.mem_unlisted_toValue hvalue

/-- A person with a name, which is listed under a tag, and with an age. -/
def personSample : Datum :=
  .struct [(utf8 "Name", some (utf8 "name"), .text (utf8 "Ann")), (utf8 "Age", none, .int 7)]

/-- Parameters of which one is passed twice and one overrides a field. -/
def personParameters : List (Bytes × Value) :=
  [(utf8 "x", .int 1), (utf8 "Age", .int 8), (utf8 "x", .bool true)]

/-- The last `x` is read, the age is overridden, and of the two names of the first field the listed
one is left. -/
theorem included_fields_of_personSample :
    let base := personSample.toValue
    let data := Render.includedData base personParameters
    base.kind = .record ∧ personParameters ≠ [] ∧
      data.get (utf8 "x") = .bool true ∧ data.get (utf8 "Age") = .int 8 ∧
      data.get (utf8 "name") = base.get (utf8 "name") ∧ data.get (utf8 "Name") = .null ∧
      (Render.includedData base (personParameters.drop 1)).get (utf8 "name") =
        data.get (utf8 "name") ∧
      base.unlisted = [utf8 "Name"] := by
  intro base data
  have hbase : base.kind = .record := rfl
  have hparameters : personParameters ≠ [] := List.cons_ne_nil _ _
  have hunlisted : base.unlisted = [utf8 "Name"] := by decide +kernel
  obtain ⟨hnamed, hothers, hadded, -, -⟩ :=
    included_fields_are_the_listed_ones base personParameters hbase hparameters
  refine ⟨hbase, hparameters, ?_, ?_, ?_, ?_, ?_, hunlisted⟩
  · exact hnamed (personParameters.take 2) _ _ [] rfl List.not_mem_nil
  · exact hnamed (personParameters.take 1) _ _ (personParameters.drop 2) rfl (by decide)
  · rw [hothers _ (by decide), hunlisted, if_neg (by decide)]
  · rw [hothers _ (by decide), hunlisted, if_pos (by decide)]
  · exact (hadded [] _ _ (personParameters.drop 1) _ rfl (by decide)
      (by rw [hunlisted]; decide)).symm

/-- The name of a field with a tag is read from a structure and is no parameter, but a partial that
is called with the structure and a parameter reads nothing under it. -/
theorem field_lost_in_personSample :
    let base := personSample.toValue
    let parameters : List (Bytes × Value) := [(utf8 "x", .int 1)]
    base.kind = .record ∧ parameters ≠ [] ∧ utf8 "Name" ∉ parameters.map Prod.fst ∧
      (Render.includedData base []).get (utf8 "Name") = .text (utf8 "Ann") ∧
      base.get (utf8 "Name") = .text (utf8 "Ann") ∧
      (Render.includedData base parameters).get (utf8 "Name") = .null :=
  ⟨rfl, List.cons_ne_nil _ _, by decide, rfl, rfl, rfl⟩

end Stencil
