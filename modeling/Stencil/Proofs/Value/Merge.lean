import Mathlib.Data.List.Induction
import Mathlib.Data.List.Nodup
import Stencil.Proofs.Render.Parameters

/-!
# Merged records

Merging goes through records from left to right and sets every field that they list.  A name keeps
the place where it first occurs and the value that it is given last.

A merged record lists its own fields in this way already, so setting them one after the other is as
good as setting the fields that it was merged from.

Results: `Fields.insertAll_insertAll` for named values, `merge_is_ordered_union` for records.
-/

namespace Stencil

/-! ## Named values -/

namespace Fields

variable {α : Type}

/-- The names of a list, each of them once, in the order in which they first occur. -/
structure InFirstOrder (names all : List Bytes) : Prop where
  nodup : names.Nodup
  mem : ∀ name, name ∈ names ↔ name ∈ all
  order : names.Pairwise fun a b => all.idxOf a < all.idxOf b

theorem insert_of_not_mem
    {key : Bytes} {fields : List (Bytes × α)}
    (h : key ∉ fields.map Prod.fst)
    (value : α) :
    insert key value fields = fields ++ [(key, value)] := by
  induction fields with
  | nil =>
      rfl
  | cons first rest ih =>
      obtain ⟨k, v⟩ := first
      rw [List.map_cons, List.mem_cons, not_or] at h
      rw [insert, if_neg (Ne.symm h.1), ih h.2, List.cons_append]

theorem names_insert_of_mem
    {key : Bytes} {fields : List (Bytes × α)}
    (h : key ∈ fields.map Prod.fst)
    (value : α) :
    (insert key value fields).map Prod.fst = fields.map Prod.fst := by
  induction fields with
  | nil =>
      cases h
  | cons first rest ih =>
      obtain ⟨k, v⟩ := first
      rw [insert]
      split
      · rfl
      · next hk =>
          rw [List.map_cons, List.mem_cons] at h
          rw [List.map_cons, List.map_cons, ih (h.resolve_left (Ne.symm hk))]

theorem mem_names_insert
    (key : Bytes) (value : α) (fields : List (Bytes × α)) (name : Bytes) :
    name ∈ (insert key value fields).map Prod.fst ↔ name = key ∨ name ∈ fields.map Prod.fst := by
  rw [← isSome_lookup_iff, isSome_lookup_insert, isSome_lookup_iff]

/-- A name that occurs once more keeps its place, and a new one comes last. -/
theorem InFirstOrder.snoc
    {names all : List Bytes} {name : Bytes}
    (h : InFirstOrder names all) :
    InFirstOrder (if name ∈ names then names else names ++ [name]) (all ++ [name]) := by
  have hearlier : ∀ a ∈ names, (all ++ [name]).idxOf a = all.idxOf a := fun a ha =>
    List.idxOf_append_of_mem ((h.mem a).1 ha)
  have horder : names.Pairwise fun a b => (all ++ [name]).idxOf a < (all ++ [name]).idxOf b := by
    refine h.order.imp_of_mem fun ha hb hlt => ?_
    rw [hearlier _ ha, hearlier _ hb]
    exact hlt
  split
  · next hname =>
      refine ⟨h.nodup, fun other => ?_, horder⟩
      rw [List.mem_append, List.mem_singleton, ← h.mem other]
      exact ⟨.inl, fun hother => hother.elim id fun heq => heq ▸ hname⟩
  · next hname =>
      have hnew : name ∉ all := fun hmem => hname ((h.mem name).2 hmem)
      refine ⟨?_, fun other => ?_, ?_⟩
      · rw [List.nodup_append]
        refine ⟨h.nodup, List.nodup_singleton name, fun a ha b hb => ?_⟩
        rintro rfl
        exact hname (List.mem_singleton.1 hb ▸ ha)
      · rw [List.mem_append, List.mem_append, h.mem other]
      · refine List.pairwise_append.2 ⟨horder, List.pairwise_singleton _ name, fun a ha b hb => ?_⟩
        obtain rfl := List.mem_singleton.1 hb
        rw [hearlier a ha, List.idxOf_append_of_notMem hnew]
        exact Nat.lt_of_lt_of_le (List.idxOf_lt_length_of_mem ((h.mem a).1 ha))
          (Nat.le_add_right _ _)

theorem insertAll_append
    (pairs more fields : List (Bytes × α)) :
    insertAll (pairs ++ more) fields = insertAll more (insertAll pairs fields) :=
  List.foldl_append

/-- Names that were set one after the other are listed in the order in which they were set first. -/
theorem inFirstOrder_insertAll
    (pairs : List (Bytes × α)) :
    InFirstOrder ((insertAll pairs []).map Prod.fst) (pairs.map Prod.fst) := by
  induction pairs using List.reverseRecOn with
  | nil =>
      exact ⟨List.nodup_nil, fun _ => Iff.rfl, .nil⟩
  | append_singleton pairs pair ih =>
      have hnames : (insertAll (pairs ++ [pair]) []).map Prod.fst =
          if pair.1 ∈ (insertAll pairs []).map Prod.fst then (insertAll pairs []).map Prod.fst
          else (insertAll pairs []).map Prod.fst ++ [pair.1] := by
        rw [insertAll_append]
        change (insert pair.1 pair.2 (insertAll pairs [])).map Prod.fst = _
        split
        · next hmem =>
            exact names_insert_of_mem hmem pair.2
        · next hmem =>
            rw [insert_of_not_mem hmem, List.map_append]
            rfl
      rw [hnames, List.map_append]
      exact ih.snoc

/-! ## Setting what was set already -/

theorem insert_insert_self
    (key : Bytes) (value old : α) (fields : List (Bytes × α)) :
    insert key value (insert key old fields) = insert key value fields := by
  induction fields with
  | nil =>
      simp [insert]
  | cons first rest ih =>
      obtain ⟨k, v⟩ := first
      by_cases hk : k = key
      · simp [insert, hk]
      · simp [insert, hk, ih]

/-- A name that is there already can be set before or after another one. -/
theorem insert_comm_of_mem
    {key other : Bytes} {fields : List (Bytes × α)}
    (hne : key ≠ other)
    (hkey : key ∈ fields.map Prod.fst)
    (value w : α) :
    insert key value (insert other w fields) = insert other w (insert key value fields) := by
  induction fields with
  | nil =>
      cases hkey
  | cons first rest ih =>
      obtain ⟨k, v⟩ := first
      by_cases hk : k = key
      · subst hk
        simp [insert, hne]
      · have hrest : key ∈ rest.map Prod.fst := by
          rw [List.map_cons, List.mem_cons] at hkey
          exact hkey.resolve_left (Ne.symm hk)
        by_cases ho : k = other
        · subst ho
          simp [insert, hk]
        · simp [insert, hk, ho, ih hrest]

theorem insertAll_insert_comm
    {key : Bytes} {pairs fields : List (Bytes × α)}
    (hpairs : key ∉ pairs.map Prod.fst)
    (hkey : key ∈ fields.map Prod.fst)
    (value : α) :
    insertAll pairs (insert key value fields) = insert key value (insertAll pairs fields) := by
  induction pairs generalizing fields with
  | nil =>
      rfl
  | cons pair rest ih =>
      rw [List.map_cons, List.mem_cons, not_or] at hpairs
      have hmem := (mem_names_insert pair.1 pair.2 fields key).2 (.inr hkey)
      rw [insertAll_cons, insertAll_cons, ← ih hpairs.2 hmem, insert_comm_of_mem hpairs.1 hkey]

/-- Setting distinct names, one of them to a further value, sets that name last. -/
theorem insertAll_insert
    {pairs : List (Bytes × α)}
    (h : (pairs.map Prod.fst).Nodup)
    (key : Bytes) (value : α) (fields : List (Bytes × α)) :
    insertAll (insert key value pairs) fields = insert key value (insertAll pairs fields) := by
  induction pairs generalizing fields with
  | nil =>
      rfl
  | cons first rest ih =>
      obtain ⟨k, v⟩ := first
      obtain ⟨hk, hrest⟩ := List.nodup_cons.1 h
      rw [insert]
      split
      · next heq =>
          subst heq
          have hmem := (mem_names_insert k v fields k).2 (.inl rfl)
          rw [insertAll_cons, insertAll_cons, ← insertAll_insert_comm hk hmem, insert_insert_self]
      · rw [insertAll_cons, insertAll_cons, ih hrest]

/-- Names that were set one after the other can be set as they are listed then. -/
theorem insertAll_insertAll
    (pairs fields : List (Bytes × α)) :
    insertAll (insertAll pairs []) fields = insertAll pairs fields := by
  induction pairs using List.reverseRecOn with
  | nil =>
      rfl
  | append_singleton pairs pair ih =>
      have hnodup := (inFirstOrder_insertAll pairs).nodup
      rw [insertAll_append, insertAll_append]
      change insertAll (insert pair.1 pair.2 (insertAll pairs [])) fields =
        insert pair.1 pair.2 (insertAll pairs fields)
      rw [insertAll_insert hnodup, ih]

end Fields

/-! ## Records -/

namespace Value

theorem names_entries
    (v : Value) :
    v.entries.map Prod.fst = v.listed := by
  cases v with
  | record fields aliases =>
      simp [entries, listed]
  | _ =>
      rfl

theorem names_flatMap_entries
    (values : List Value) :
    (values.flatMap entries).map Prod.fst = values.flatMap listed := by
  rw [List.map_flatMap]
  exact congrArg values.flatMap (funext names_entries)

/-- A record that was put together lists its entries as they were set. -/
theorem entries_object
    (pairs : List (Bytes × Value)) :
    (object pairs).entries = Fields.insertAll pairs [] := by
  have hnodup := (Fields.inFirstOrder_insertAll pairs).nodup
  rw [object, entries]
  refine (List.map_congr_left fun entry hentry => ?_).trans (List.map_id _)
  have hfound := (Fields.lookup_eq_some_iff_mem hnodup).2 hentry
  rw [field?, hfound]
  rfl

theorem inFirstOrder_listed_merge
    (values : List Value) :
    Fields.InFirstOrder (merge values).listed (values.flatMap listed) := by
  rw [← names_flatMap_entries]
  exact Fields.inFirstOrder_insertAll (values.flatMap entries)

theorem lookup_reverse_flatMap_entries
    {values : List Value} {key : Bytes}
    (h : ∀ v ∈ values, key ∉ v.listed) :
    (values.flatMap entries).reverse.lookup key = none := by
  refine Fields.lookup_eq_none_of_not_mem fun hmem => ?_
  rw [List.map_reverse, List.mem_reverse, names_flatMap_entries, List.mem_flatMap] at hmem
  obtain ⟨v, hv, hkey⟩ := hmem
  exact h v hv hkey

/-- The last record that lists a name gives its value. -/
theorem get_merge_of_last
    {front back : List Value} {v : Value} {key : Bytes}
    (hv : key ∈ v.listed)
    (hback : ∀ w ∈ back, key ∉ w.listed) :
    (merge (front ++ v :: back)).get key = v.get key := by
  rw [merge, get_object, List.flatMap_append, List.flatMap_cons, List.reverse_append,
    List.reverse_append, List.lookup_append, List.lookup_append,
    lookup_reverse_flatMap_entries hback, lookup_reverse_entries, if_pos hv]
  rfl

theorem get_merge_of_unlisted
    {values : List Value} {key : Bytes}
    (h : ∀ v ∈ values, key ∉ v.listed) :
    (merge values).get key = null := by
  rw [merge, get_object, lookup_reverse_flatMap_entries h]
  rfl

theorem merge_filter_record
    (values : List Value) :
    merge (values.filter fun v => v.kind = .record) = merge values := by
  have hentries : (values.filter fun v => v.kind = .record).flatMap entries =
      values.flatMap entries := by
    induction values with
    | nil =>
        rfl
    | cons v rest ih =>
        rw [List.filter_cons, List.flatMap_cons, ← ih]
        cases v <;> rfl
  rw [merge, merge, hentries]

/-- A merged record among others can be replaced by the records that it was merged from. -/
theorem merge_append_merge
    (xs ys zs : List Value) :
    merge (xs ++ [merge ys] ++ zs) = merge (xs ++ ys ++ zs) := by
  have hentries : (merge ys).entries = Fields.insertAll (ys.flatMap entries) [] := entries_object _
  have hfields : Fields.insertAll ((xs ++ [merge ys] ++ zs).flatMap entries) [] =
      Fields.insertAll ((xs ++ ys ++ zs).flatMap entries) [] := by
    simp only [List.flatMap_append, List.flatMap_cons, List.flatMap_nil, List.append_nil, hentries,
      Fields.insertAll_append, Fields.insertAll_insertAll]
  exact congrArg (record · []) hfields

/-- Parameters put together are those of two records merged. -/
theorem object_append
    (outer inner : List (Bytes × Value)) :
    object (outer ++ inner) = merge [object outer, object inner] := by
  have hfields : Fields.insertAll (outer ++ inner) [] =
      Fields.insertAll ([object outer, object inner].flatMap entries) [] := by
    simp only [List.flatMap_cons, List.flatMap_nil, List.append_nil, entries_object,
      Fields.insertAll_append, Fields.insertAll_insertAll]
  exact congrArg (record · []) hfields

end Value

/-- A call of a partial inside of another one adds its parameters to those of the outer call. -/
theorem Render.includedData_includedData
    (base : Value) (outer inner : List (Bytes × Value)) :
    includedData (includedData base outer) inner = includedData base (outer ++ inner) := by
  cases outer with
  | nil =>
      rfl
  | cons o outer =>
      cases inner with
      | nil =>
          rw [List.append_nil]
          rfl
      | cons i inner =>
          have hleft := Value.merge_append_merge [] [base, .object (o :: outer)]
            [.object (i :: inner)]
          have hright := Value.merge_append_merge [base]
            [.object (o :: outer), .object (i :: inner)] []
          simp only [List.nil_append, List.append_nil, List.cons_append] at hleft hright
          change Value.merge [Value.merge [base, .object (o :: outer)], .object (i :: inner)] =
            Value.merge [base, .object ((o :: outer) ++ i :: inner)]
          rw [Value.object_append, hleft, hright]

/-- Merging is an ordered union.  The merged record lists the names of all records, in the order in
which they first occur; what it has under a name is what the last record that lists the name has,
and nothing under any other name.  Other values have no part in it, a merged record among the
arguments stands for the arguments that it was merged from, and so calls of partials inside of each
other put their parameters together. -/
theorem merge_is_ordered_union
    (values : List Value) :
    (Value.merge values).kind = .record ∧
      Fields.InFirstOrder (Value.merge values).listed (values.flatMap Value.listed) ∧
      (∀ front v back key, values = front ++ v :: back → key ∈ v.listed →
        (∀ w ∈ back, key ∉ w.listed) → (Value.merge values).get key = v.get key) ∧
      (∀ key, key ∉ values.flatMap Value.listed → (Value.merge values).get key = .null) ∧
      Value.merge (values.filter fun v => v.kind = .record) = Value.merge values ∧
      (∀ xs ys zs, Value.merge (xs ++ [Value.merge ys] ++ zs) = Value.merge (xs ++ ys ++ zs)) ∧
      ∀ base outer inner, Render.includedData (Render.includedData base outer) inner =
        Render.includedData base (outer ++ inner) := by
  refine ⟨rfl, Value.inFirstOrder_listed_merge values, ?_, fun key hkey => ?_,
    Value.merge_filter_record values, Value.merge_append_merge, Render.includedData_includedData⟩
  · rintro front v back key rfl hv hback
    exact Value.get_merge_of_last hv hback
  · refine Value.get_merge_of_unlisted fun v hv hlisted => hkey ?_
    exact List.mem_flatMap.2 ⟨v, hv, hlisted⟩

/-- Two records that share a name, with a text in between.  The second one has a name that it does
not list. -/
def layers : List Value :=
  [.record [(utf8 "title", .text (utf8 "Home")), (utf8 "lang", .text (utf8 "en"))] [],
    .text (utf8 "title"),
    .record [(utf8 "user", .null), (utf8 "title", .text (utf8 "Ann"))] [(utf8 "lang", .null)]]

theorem merge_of_layers :
    (Value.merge layers).listed = [utf8 "title", utf8 "lang", utf8 "user"] ∧
      (Value.merge layers).get (utf8 "title") = .text (utf8 "Ann") ∧
      (Value.merge layers).get (utf8 "lang") = .text (utf8 "en") ∧
      (Value.merge layers).get (utf8 "name") = .null := by
  obtain ⟨-, -, hlast, hnull, -⟩ := merge_is_ordered_union layers
  refine ⟨rfl, ?_, ?_, hnull _ (by decide)⟩
  · exact hlast (layers.take 2) _ [] (utf8 "title") rfl (by decide) (by decide)
  · exact hlast [] _ (layers.drop 1) (utf8 "lang") rfl (by decide) (by decide)

end Stencil
