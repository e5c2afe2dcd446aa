import Stencil.Proofs.Render.Builtins
import Stencil.Proofs.Render.Contract

/-!
# What can be reached in data

A template gets at the parts of its data by reading properties and by going through lists.  A
property that all values have but, perhaps, trusted markup and nodes holds of everything in view
when it holds of everything that can be reached in the data: reading, going through lists, calling
partials with parameters and the metadata of `each` add nothing else.

Results: `Value.Everywhere` with one lemma for each way to make a value, and
`Contract.helper_builtins` for the helpers that every engine has.
-/

namespace Stencil

namespace Value

/-- What can be reached in a value by reading properties and going through lists. -/
inductive Reaches : Value → Value → Prop
  | self (v : Value) : Reaches v v
  | property {v w : Value} (key : Bytes) (h : Reaches (v.get key) w) : Reaches v w
  | item {items : List Value} {v w : Value} (hv : v ∈ items) (h : Reaches v w) :
      Reaches (.list items) w

/-- Everything that can be reached in a value has a property. -/
def Everywhere (Q : Value → Prop) (v : Value) : Prop := ∀ w, v.Reaches w → Q w

/-- A property that only trusted markup and nodes can lack. -/
def Common (Q : Value → Prop) : Prop := ∀ v : Value, v.kind ≠ .html → v.kind ≠ .nodes → Q v

theorem Reaches.eq_null
    {v w : Value}
    (h : v.Reaches w)
    (hv : v = .null) :
    w = .null := by
  induction h with
  | self =>
      exact hv
  | property key _ ih =>
      subst hv
      exact ih rfl
  | item =>
      cases hv

section Everywhere

variable {Q : Value → Prop}

theorem Everywhere.get
    {v : Value}
    (h : v.Everywhere Q)
    (key : Bytes) :
    (v.get key).Everywhere Q :=
  fun w hw => h w (.property key hw)

theorem Everywhere.item
    {items : List Value} {v : Value}
    (h : (Value.list items).Everywhere Q)
    (hv : v ∈ items) :
    v.Everywhere Q :=
  fun w hw => h w (.item hv hw)

theorem everywhere_of_parts
    {v : Value}
    (hself : Q v)
    (hget : ∀ key, (v.get key).Everywhere Q)
    (hitems : ∀ items, v = .list items → ∀ i ∈ items, i.Everywhere Q) :
    v.Everywhere Q := by
  intro w hw
  cases hw with
  | self =>
      exact hself
  | property key h =>
      exact hget key w h
  | item hi h =>
      exact hitems _ rfl _ hi w h

/-- The fields of a record are what reading its properties gives. -/
theorem Everywhere.entries
    {v : Value}
    (h : v.Everywhere Q) :
    ∀ e ∈ v.entries, e.2.Everywhere Q := by
  intro e he
  cases v with
  | record fields aliases =>
      obtain ⟨f, _, rfl⟩ := List.mem_map.1 he
      exact h.get f.1
  | null | bool | int | float | text | html | list | nodes =>
      cases he

variable (hQ : Common Q)

include hQ

theorem everywhere_null :
    Everywhere Q .null := by
  intro w hw
  rw [hw.eq_null rfl]
  exact hQ .null nofun nofun

theorem everywhere_bool
    (b : Bool) :
    Everywhere Q (.bool b) :=
  everywhere_of_parts (hQ _ nofun nofun) (fun _ => everywhere_null hQ) nofun

theorem everywhere_int
    (n : Int64) :
    Everywhere Q (.int n) :=
  everywhere_of_parts (hQ _ nofun nofun) (fun _ => everywhere_null hQ) nofun

theorem everywhere_float
    (x : Binary64) :
    Everywhere Q (.float x) :=
  everywhere_of_parts (hQ _ nofun nofun) (fun _ => everywhere_null hQ) nofun

theorem everywhere_text
    (s : Bytes) :
    Everywhere Q (.text s) := by
  refine everywhere_of_parts (hQ _ nofun nofun) (fun key => ?_) nofun
  simp only [Value.get]
  split
  · exact everywhere_int hQ _
  · exact everywhere_null hQ

theorem everywhere_html
    {s : Bytes}
    (hs : Q (.html s)) :
    Everywhere Q (.html s) := by
  refine everywhere_of_parts hs (fun key => ?_) nofun
  simp only [Value.get]
  split
  · exact everywhere_int hQ _
  · exact everywhere_null hQ

theorem everywhere_list
    {items : List Value}
    (hitems : ∀ v ∈ items, v.Everywhere Q) :
    Everywhere Q (.list items) := by
  refine everywhere_of_parts (hQ _ nofun nofun) (fun key => ?_) fun _ h => by
    cases h
    exact hitems
  simp only [Value.get]
  split
  · exact everywhere_int hQ _
  · split
    · split
      · exact everywhere_null hQ
      · next i _ _ =>
          cases hfound : items[i.toInt.toNat]? with
          | none =>
              exact everywhere_null hQ
          | some v =>
              exact hitems v (List.mem_of_getElem? hfound)
    · exact everywhere_null hQ

theorem everywhere_record
    {fields aliases : List (Bytes × Value)}
    (hfields : ∀ f ∈ fields, f.2.Everywhere Q)
    (haliases : ∀ f ∈ aliases, f.2.Everywhere Q) :
    Everywhere Q (.record fields aliases) := by
  refine everywhere_of_parts (hQ _ nofun nofun) (fun key => ?_) nofun
  simp only [Value.get, Value.field?]
  cases hfield : fields.lookup key with
  | some v =>
      exact hfields _ (Fields.mem_of_lookup hfield)
  | none =>
      cases halias : aliases.lookup key with
      | some v =>
          exact haliases _ (Fields.mem_of_lookup halias)
      | none =>
          exact everywhere_null hQ

theorem everywhere_object
    {pairs : List (Bytes × Value)}
    (h : ∀ p ∈ pairs, p.2.Everywhere Q) :
    (object pairs).Everywhere Q := by
  refine everywhere_record hQ (fun f hf => ?_) fun f hf => by cases hf
  rcases Fields.mem_insertAll hf with hpair | hnone
  · exact h f hpair
  · cases hnone

theorem everywhere_merge
    {values : List Value}
    (h : ∀ v ∈ values, v.Everywhere Q) :
    (merge values).Everywhere Q := by
  refine everywhere_object hQ fun p hp => ?_
  obtain ⟨v, hv, hmem⟩ := List.mem_flatMap.1 hp
  exact (h v hv).entries p hmem

theorem everywhere_trust
    {v : Value}
    (h : v.Everywhere Q)
    (hhtml : ∀ s, Q (.html s)) :
    v.trust.Everywhere Q := by
  cases v with
  | null | html | nodes =>
      exact h
  | bool | int | float | text | record | list =>
      exact everywhere_html hQ (hhtml _)

theorem everywhere_constant
    (k : Constant) :
    k.value.Everywhere Q := by
  cases k with
  | tally n =>
      exact everywhere_int hQ n
  | written l =>
      cases l with
      | text s =>
          exact everywhere_text hQ s
      | int n =>
          exact everywhere_int hQ n
      | float x =>
          exact everywhere_float hQ x
      | bool b =>
          exact everywhere_bool hQ b
      | null =>
          exact everywhere_null hQ

theorem everywhere_includedData
    {base : Value} {parameters : List (Bytes × Value)}
    (hbase : base.Everywhere Q)
    (hparameters : ∀ a ∈ parameters, a.2.Everywhere Q) :
    (Render.includedData base parameters).Everywhere Q := by
  unfold Render.includedData
  split
  · exact hbase
  · refine everywhere_merge hQ fun v hv => ?_
    simp only [List.mem_cons, List.not_mem_nil, or_false] at hv
    rcases hv with rfl | rfl
    · exact hbase
    · exact everywhere_object hQ hparameters

theorem everywhere_iterationMetadata
    (index count : Nat) :
    ∀ m ∈ iterationMetadata index count, m.2.Everywhere Q := by
  intro m hm
  simp only [iterationMetadata, List.mem_cons, List.not_mem_nil, or_false] at hm
  rcases hm with rfl | rfl | rfl
  · exact everywhere_int hQ _
  · exact everywhere_bool hQ _
  · exact everywhere_bool hQ _

theorem everywhere_listPasses
    {items : List Value}
    (h : (Value.list items).Everywhere Q) :
    ∀ pass ∈ Helper.listPasses items,
      pass.1.Everywhere Q ∧ ∀ m ∈ pass.2, m.2.Everywhere Q := by
  intro pass hpass
  obtain ⟨i, hi, rfl⟩ := List.mem_mapIdx.1 hpass
  exact ⟨h.item (List.getElem_mem hi), everywhere_iterationMetadata hQ i items.length⟩

theorem everywhere_recordPasses
    {entries : List (Bytes × Value)}
    (h : ∀ e ∈ entries, e.2.Everywhere Q) :
    ∀ pass ∈ Helper.recordPasses entries,
      pass.1.Everywhere Q ∧ ∀ m ∈ pass.2, m.2.Everywhere Q := by
  intro pass hpass
  obtain ⟨i, hi, rfl⟩ := List.mem_mapIdx.1 hpass
  refine ⟨h _ (List.getElem_mem hi), fun m hm => ?_⟩
  rcases List.mem_append.1 hm with hplace | hkey
  · exact everywhere_iterationMetadata hQ i entries.length m hplace
  · obtain rfl := List.mem_singleton.1 hkey
    exact everywhere_text hQ _

end Everywhere

end Value

/-! ## Built-in helpers -/

namespace Contract

variable {c : Contract}

theorem action_showSection
    {part : Section} {inner : Value} {s : Stencil.Scope}
    (hinner : c.value inner)
    (hs : c.Scope s) :
    c.Action (.showSection part inner s) := by
  refine ⟨hs.push hinner (fun m hm => by cases hm), fun outcome houtcome => ?_⟩
  cases outcome with
  | ok nodes =>
      intro ns hns
      cases hns
      exact houtcome
  | error e =>
      exact houtcome

theorem action_showEach
    {s : Stencil.Scope} {passes : List (Value × Metadata)}
    (hs : c.Scope s)
    (hpasses : ∀ pass ∈ passes, c.value pass.1 ∧ ∀ m ∈ pass.2, c.value m.2)
    {shown : List Node}
    (hshown : c.Nodes shown) :
    c.Action (.showEach s passes shown) := by
  induction passes generalizing shown with
  | nil =>
      intro ns hns
      cases hns
      exact hshown
  | cons pass rest ih =>
      obtain ⟨hvalue, hmetadata⟩ := hpasses pass List.mem_cons_self
      refine ⟨hs.push hvalue hmetadata, fun outcome houtcome => ?_⟩
      cases outcome with
      | ok nodes =>
          exact ih (fun p hp => hpasses p (List.mem_cons_of_mem pass hp)) (hshown.append houtcome)
      | error e =>
          exact houtcome

section Builtins

variable {Q : Value → Prop} (hvalue : c.value = Value.Everywhere Q) (hQ : Value.Common Q)

include hvalue hQ

theorem value_data
    {s : Stencil.Scope}
    (hs : c.Scope s) :
    c.value s.data :=
  Stencil.Scope.All.data (hvalue ▸ Value.everywhere_null hQ) hs

theorem value_nth
    {a : Stencil.Arguments}
    (ha : c.Arguments a)
    (i : Int) :
    c.value (a.nth i) := by
  have hnull : c.value .null := hvalue ▸ Value.everywhere_null hQ
  unfold Arguments.nth
  split
  · exact hnull
  · cases hfound : a.positional[i.toNat]? with
    | none =>
        exact hnull
    | some v =>
        exact ha.1 v (List.mem_of_getElem? hfound)

/-- The helpers that every engine has keep a contract on what can be reached. -/
theorem helper_builtins
    (hfailure : ∀ kind, c.failure (.notSequence kind)) :
    ∀ entry ∈ Helper.builtins, c.Helper entry.2 := by
  intro entry hentry a s hasInverse ha hs
  have harg := value_nth hvalue hQ ha 0
  refine Helper.builtin_cases (motive := c.Action) hentry a s hasInverse
    (fun part => action_showSection (value_data hvalue hQ hs) hs) (action_showSection harg hs)
    (fun items hlist => ?_) (fun fields aliases hrecord => ?_) hfailure
  · rw [hlist, hvalue] at harg
    refine action_showEach hs ?_ nodes_nil
    rw [hvalue]
    exact Value.everywhere_listPasses hQ harg
  · rw [hrecord, hvalue] at harg
    refine action_showEach hs ?_ nodes_nil
    rw [hvalue]
    exact Value.everywhere_recordPasses hQ harg.entries

end Builtins

end Contract

end Stencil
