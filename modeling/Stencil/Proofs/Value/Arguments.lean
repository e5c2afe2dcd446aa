import Stencil.Proofs.Value.Merge

/-!
# Two views of named arguments

The named arguments of a call are asked for one by one, the last one with a name first, or taken
together as a record, which is filled from the first one on.

A record filled by name can be kept in two parts, a ledger: the names in the order in which they
came, and apart from them what is found under a name.  A name is added to the list when nothing is
found under it yet, so the list has no repetition and is exactly the domain of what is found.  A
ledger carries these two facts, every name that is set keeps them, and the record of some arguments
is the ledger of them in one list.

Results: `Ledger.keptIn_insertAll` for named values, `named_views_agree` for arguments.
-/

namespace Stencil

/-! ## Ledgers -/

/-- Names in order and what is found under them, kept apart. -/
structure Ledger (α : Type) where
  names : List Bytes
  find? : Bytes → Option α
  nodup : names.Nodup
  mem_names : ∀ name, name ∈ names ↔ (find? name).isSome = true

namespace Ledger

variable {α : Type}

/-- The ledger without names. -/
def empty : Ledger α where
  names := []
  find? _ := none
  nodup := List.nodup_nil
  mem_names _ := ⟨fun h => absurd h List.not_mem_nil, fun h => absurd h Bool.false_ne_true⟩

/-- The names with one more that was set: it comes last unless it is there already. -/
def namesWith (key : Bytes) (l : Ledger α) : List Bytes :=
  if (l.find? key).isSome then l.names else l.names ++ [key]

theorem nodup_namesWith
    (key : Bytes) (l : Ledger α) :
    (l.namesWith key).Nodup := by
  rw [namesWith]
  split
  · exact l.nodup
  · next hnew =>
      refine List.nodup_append.2 ⟨l.nodup, List.nodup_singleton key, fun a ha b hb => ?_⟩
      rintro rfl
      exact hnew ((l.mem_names key).1 (List.mem_singleton.1 hb ▸ ha))

theorem mem_namesWith
    (key : Bytes) (l : Ledger α) (name : Bytes) :
    name ∈ l.namesWith key ↔ name = key ∨ (l.find? name).isSome = true := by
  rw [namesWith, ← l.mem_names name]
  split
  · next hthere =>
      refine ⟨.inr, fun h => h.elim (fun heq => ?_) id⟩
      exact heq ▸ (l.mem_names key).2 hthere
  · rw [List.mem_append, List.mem_singleton, or_comm]

/-- A name set to a value. -/
def set (key : Bytes) (value : α) (l : Ledger α) : Ledger α where
  names := l.namesWith key
  find? name := if name = key then some value else l.find? name
  nodup := l.nodup_namesWith key
  mem_names name := by
    rw [mem_namesWith]
    split
    · next heq =>
        exact ⟨fun _ => rfl, fun _ => .inl heq⟩
    · next hne =>
        exact ⟨fun h => h.resolve_left hne, .inr⟩

/-- Names set one after the other. -/
def ofPairs (pairs : List (Bytes × α)) : Ledger α :=
  pairs.foldl (fun l p => l.set p.1 p.2) empty

/-- Whether named values in one list are what a ledger keeps in two parts. -/
structure KeptIn (l : Ledger α) (fields : List (Bytes × α)) : Prop where
  names : fields.map Prod.fst = l.names
  values : ∀ name, fields.lookup name = l.find? name

/-- Setting a name does the same to both. -/
theorem KeptIn.insert
    {l : Ledger α} {fields : List (Bytes × α)}
    (h : l.KeptIn fields)
    (key : Bytes) (value : α) :
    (l.set key value).KeptIn (Fields.insert key value fields) := by
  have hmem : key ∈ fields.map Prod.fst ↔ (l.find? key).isSome = true := by
    rw [h.names, l.mem_names key]
  refine ⟨?_, fun name => ?_⟩
  · change _ = l.namesWith key
    rw [namesWith, ← h.names]
    split
    · next hthere =>
        exact Fields.names_insert_of_mem (hmem.2 hthere) value
    · next hnew =>
        rw [Fields.insert_of_not_mem (mt hmem.1 hnew) value, List.map_append]
        rfl
  · change _ = if name = key then some value else l.find? name
    split
    · next heq =>
        rw [heq, Fields.lookup_insert_self]
    · next hne =>
        rw [Fields.lookup_insert_of_ne hne, h.values name]

/-- Named values that were set one after the other are those of the ledger. -/
theorem keptIn_insertAll
    (pairs : List (Bytes × α)) :
    (ofPairs pairs).KeptIn (Fields.insertAll pairs []) := by
  have hrun : ∀ (pairs : List (Bytes × α)) (l : Ledger α) (fields : List (Bytes × α)),
      l.KeptIn fields →
      (pairs.foldl (fun l p => l.set p.1 p.2) l).KeptIn (Fields.insertAll pairs fields) := by
    intro pairs
    induction pairs with
    | nil =>
        exact fun _ _ h => h
    | cons pair rest ih =>
        intro l fields h
        exact ih _ _ (h.insert pair.1 pair.2)
  exact hrun pairs empty [] ⟨rfl, fun _ => rfl⟩

end Ledger

/-! ## Records -/

namespace Value

/-- What a record has under a name, if anything. -/
def property? : Value → Bytes → Option Value
  | record fields aliases, name => field? fields aliases name
  | _, _ => none

theorem property?_object
    (pairs : List (Bytes × Value)) (name : Bytes) :
    (object pairs).property? name = (Ledger.ofPairs pairs).find? name := by
  rw [object, property?, field?, (Ledger.keptIn_insertAll pairs).values]
  exact Option.or_none

theorem listed_object
    (pairs : List (Bytes × Value)) :
    (object pairs).listed = (Ledger.ofPairs pairs).names :=
  (Ledger.keptIn_insertAll pairs).names

end Value

namespace Arguments

theorem get_eq_get_record
    (a : Arguments) (name : Bytes) :
    a.get name = a.record.get name := by
  rw [get, record, Value.get_object]

/-- The last argument with a name is the one that is found. -/
theorem get_of_last
    {a : Arguments} {front back : List (Bytes × Value)} {name : Bytes} {v : Value}
    (h : a.named = front ++ (name, v) :: back)
    (hback : name ∉ back.map Prod.fst) :
    a.get name = v := by
  have hnone : back.reverse.lookup name = none :=
    Fields.lookup_eq_none_of_not_mem (by rwa [List.map_reverse, List.mem_reverse])
  rw [get, h, List.reverse_append, List.reverse_cons, List.append_assoc, List.lookup_append, hnone]
  simp

theorem get_of_absent
    {a : Arguments} {name : Bytes}
    (h : name ∉ a.named.map Prod.fst) :
    a.get name = .null := by
  have hnone : a.named.reverse.lookup name = none :=
    Fields.lookup_eq_none_of_not_mem (by rwa [List.map_reverse, List.mem_reverse])
  rw [get, hnone]
  rfl

/-- Named arguments are the same asked for one by one and taken together as a record.  Under a name
both give the last argument with it, and null where there is none.  The record lists the names that
were passed, each of them once and in the order in which they first occur, these are exactly the
names under which it has a value, and it is what setting one name after the other leaves in a
ledger. -/
theorem named_views_agree
    (a : Arguments) :
    (∀ name, a.get name = a.record.get name) ∧
      (∀ front name v back, a.named = front ++ (name, v) :: back → name ∉ back.map Prod.fst →
        a.get name = v) ∧
      (∀ name, name ∉ a.named.map Prod.fst → a.get name = .null) ∧
      a.record.kind = .record ∧
      Fields.InFirstOrder a.record.listed (a.named.map Prod.fst) ∧
      (∀ name, name ∈ a.record.listed ↔ (a.record.property? name).isSome = true) ∧
      a.record.listed = (Ledger.ofPairs a.named).names ∧
      a.record.property? = (Ledger.ofPairs a.named).find? := by
  have hnames : a.record.listed = (Ledger.ofPairs a.named).names := Value.listed_object a.named
  have hvalues : a.record.property? = (Ledger.ofPairs a.named).find? :=
    funext (Value.property?_object a.named)
  refine ⟨a.get_eq_get_record, fun _ _ _ _ => get_of_last, fun _ => get_of_absent, rfl,
    Fields.inFirstOrder_insertAll a.named, fun name => ?_, hnames, hvalues⟩
  rw [hnames, hvalues]
  exact (Ledger.ofPairs a.named).mem_names name

/-- Three arguments, two of them with one name. -/
def linkArguments : Arguments where
  positional := [.text (utf8 "Home")]
  named := [(utf8 "to", .text (utf8 "/")), (utf8 "rel", .null), (utf8 "to", .text (utf8 "/home"))]

theorem named_views_of_linkArguments :
    linkArguments.record.listed = [utf8 "to", utf8 "rel"] ∧
      linkArguments.get (utf8 "to") = .text (utf8 "/home") ∧
      linkArguments.record.get (utf8 "to") = .text (utf8 "/home") ∧
      (linkArguments.record.property? (utf8 "rel")).isSome = true ∧
      linkArguments.get (utf8 "title") = .null := by
  obtain ⟨hviews, hlast, hnull, -, -, hdomain, -⟩ := named_views_agree linkArguments
  have hto : linkArguments.get (utf8 "to") = .text (utf8 "/home") :=
    hlast (linkArguments.named.take 2) _ _ [] rfl (by decide)
  exact ⟨rfl, hto, (hviews _).symm.trans hto, (hdomain _).1 (by decide), hnull _ (by decide)⟩

end Arguments
end Stencil
