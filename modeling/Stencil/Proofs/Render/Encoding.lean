import Stencil.Proofs.Fields
import Stencil.Proofs.Number.Decimal
import Stencil.Proofs.Render.Contexts
import Stencil.Proofs.Text.Utf8
import Stencil.Render

/-!
# Well-formed values

A value is well-formed when all of its texts are: those that it holds, the names of its fields, and
the tags and attributes of its nodes.  Whatever a template finds in well-formed data is well-formed,
and so is what it shows of it, since numbers and truth values are written in ASCII.

Results: `Scope.Encoded.value`, `Value.isUtf8_includedData` and `Value.isUtf8_display`.
-/

namespace Stencil

/-! ## Numbers -/

/-- Bytes of ASCII only. -/
def Bytes.IsAscii (s : Bytes) : Prop := ∀ b ∈ s, b < 0x80

namespace Bytes

theorem IsAscii.append
    {s t : Bytes}
    (hs : s.IsAscii)
    (ht : t.IsAscii) :
    (s ++ t).IsAscii :=
  List.forall_mem_append.2 ⟨hs, ht⟩

theorem IsAscii.cons
    {b : UInt8} {s : Bytes}
    (hb : b < 0x80)
    (hs : s.IsAscii) :
    IsAscii (b :: s) :=
  List.forall_mem_cons.2 ⟨hb, hs⟩

theorem IsAscii.ite
    {p : Prop} [Decidable p] {s t : Bytes}
    (hs : s.IsAscii)
    (ht : t.IsAscii) :
    IsAscii (if p then s else t) := by
  by_cases hp : p
  · rwa [if_pos hp]
  · rwa [if_neg hp]

theorem isAscii_nil :
    IsAscii [] :=
  fun _ hb => absurd hb List.not_mem_nil

theorem isAscii_replicate
    (n : Nat) {b : UInt8}
    (hb : b < 0x80) :
    IsAscii (List.replicate n b) := by
  intro c hc
  rw [List.eq_of_mem_replicate hc]
  exact hb

theorem isAscii_decimal
    (n : Nat) :
    (decimal n).IsAscii := by
  intro b hb
  have hdigit := isDigit_of_mem_decimal hb
  simp only [Ascii.isDigit, Bool.and_eq_true, decide_eq_true_eq, UInt8.le_iff_toNat_le,
    UInt8.reduceToNat] at hdigit
  rw [UInt8.lt_iff_toNat_lt]
  exact Nat.lt_of_le_of_lt hdigit.2 (by decide)

theorem isAscii_decimalInt
    (n : Int) :
    (decimalInt n).IsAscii := by
  cases n with
  | ofNat n =>
      exact isAscii_decimal n
  | negSucc n =>
      exact (isAscii_decimal (n + 1)).cons (by decide)

end Bytes

namespace Decimal

open Bytes

theorem isAscii_digits
    (d : Decimal) :
    d.digits.IsAscii :=
  isAscii_nil.ite (isAscii_decimal _)

theorem isAscii_positional
    (d : Decimal) :
    d.positional.IsAscii := by
  have hdigits := d.isAscii_digits
  have hzeros : ∀ n, IsAscii (List.replicate n Ascii.zero) := fun n =>
    isAscii_replicate n (by decide)
  have htake : ∀ n, IsAscii (d.digits.take n) := fun n b hb => hdigits b (List.mem_of_mem_take hb)
  have hdrop : ∀ n, IsAscii (d.digits.drop n) := fun n b hb => hdigits b (List.mem_of_mem_drop hb)
  have hwhole := (hzeros 1).ite (p := d.point ≤ 0) ((htake d.point.toNat).append
    (hzeros (d.point.toNat - d.digits.length)))
  have hfraction := ((hzeros (-d.point).toNat).append hdigits).ite (p := d.point ≤ 0)
    (hdrop d.point.toNat)
  have hdot : Ascii.dot < 0x80 := by decide
  exact hwhole.ite (hwhole.ite (hwhole.append (hfraction.cons hdot)))

theorem isAscii_exponentText
    (e : Int) :
    (exponentText e).IsAscii := by
  have hdigits := isAscii_decimal e.natAbs
  have hzero : Ascii.zero < 0x80 := by decide
  refine IsAscii.cons ?_ ((hdigits.cons hzero).ite hdigits)
  split <;> decide

theorem isAscii_scientific
    (d : Decimal) :
    d.scientific.IsAscii := by
  have hdigits := d.isAscii_digits
  have hhead : IsAscii (d.digits.take 1) := fun b hb => hdigits b (List.mem_of_mem_take hb)
  have htail : IsAscii (d.digits.drop 1) := fun b hb => hdigits b (List.mem_of_mem_drop hb)
  have hdot : Ascii.dot < 0x80 := by decide
  have hmark : (0x65 : UInt8) < 0x80 := by decide
  have hdecimals := isAscii_nil.ite (p := (d.digits.drop 1).isEmpty) (htail.cons hdot)
  exact (hhead.append hdecimals).append ((isAscii_exponentText _).cons hmark)

end Decimal

namespace Binary64

open Bytes

theorem isAscii_write
    {style : Decimal → Bytes}
    (hstyle : ∀ d, (style d).IsAscii)
    (x : Binary64) :
    (x.write style).IsAscii := by
  have hminus : IsAscii [Ascii.minus] := isAscii_replicate 1 (by decide)
  have hzero : IsAscii [Ascii.zero] := isAscii_replicate 1 (by decide)
  have hnan : IsAscii (utf8 "NaN") := by
    unfold IsAscii
    decide +kernel
  have hinfinite : ∀ negative : Bool, IsAscii (utf8 (if negative then "-Inf" else "+Inf")) := by
    unfold IsAscii
    decide +kernel
  unfold write
  cases x.decode with
  | nan =>
      exact hnan
  | infinite negative =>
      exact hinfinite negative
  | finite negative m q =>
      have hsign := hminus.ite (p := negative) isAscii_nil
      exact (hsign.append hzero).ite (hsign.append (hstyle _))

/-- Numbers are written in ASCII. -/
theorem isAscii_plain
    (x : Binary64) :
    x.plain.IsAscii := by
  have hpositional : x.positional.IsAscii := isAscii_write Decimal.isAscii_positional x
  have hgeneral : x.general.IsAscii :=
    isAscii_write (fun d => d.isAscii_scientific.ite d.isAscii_positional) x
  unfold plain
  split
  · exact hpositional.ite hgeneral
  · exact hgeneral

end Binary64

/-! ## Nodes -/

namespace Node

mutual

/-- Whether all texts of a node are well-formed. -/
def isUtf8 : Node → Bool
  | text s => Stencil.isUtf8 s
  | raw s => Stencil.isUtf8 s
  | element tag attributes children =>
    Stencil.isUtf8 tag && attributes.all (fun a => Stencil.isUtf8 a.1 && Stencil.isUtf8 a.2) &&
      allUtf8 children
  | absent => true
  | reference => true

/-- Whether all texts of a forest are well-formed. -/
def allUtf8 : List Node → Bool
  | [] => true
  | n :: rest => isUtf8 n && allUtf8 rest

end

theorem allUtf8_append
    (ns ms : List Node) :
    allUtf8 (ns ++ ms) = (allUtf8 ns && allUtf8 ms) := by
  induction ns with
  | nil =>
      rfl
  | cons n rest ih =>
      rw [List.cons_append, allUtf8, allUtf8, ih, Bool.and_assoc]

mutual

theorem isUtf8_content
    {n : Node}
    (h : n.isUtf8 = true) :
    Stencil.isUtf8 n.content = true := by
  cases n with
  | text s =>
      exact h
  | raw s =>
      exact h
  | element tag attributes children =>
      rw [isUtf8, Bool.and_eq_true] at h
      exact isUtf8_textOf h.2
  | absent | reference =>
      rfl

/-- The text of a well-formed forest is well-formed. -/
theorem isUtf8_textOf
    {ns : List Node}
    (h : allUtf8 ns = true) :
    Stencil.isUtf8 (textOf ns) = true := by
  cases ns with
  | nil =>
      rfl
  | cons n rest =>
      rw [allUtf8, Bool.and_eq_true] at h
      exact isUtf8_append (isUtf8_content h.1) (isUtf8_textOf h.2)

end

end Node

/-! ## Values -/

namespace Value

mutual

/-- Whether all texts of a value are well-formed, the names of fields included. -/
def isUtf8 : Value → Bool
  | text s => Stencil.isUtf8 s
  | html s => Stencil.isUtf8 s
  | record fields aliases => fieldsUtf8 fields && fieldsUtf8 aliases
  | list items => allUtf8 items
  | nodes ns => Node.allUtf8 ns
  | null => true
  | bool _ => true
  | int _ => true
  | float _ => true

/-- Whether all texts of some values are well-formed. -/
def allUtf8 : List Value → Bool
  | [] => true
  | v :: rest => isUtf8 v && allUtf8 rest

/-- Whether the names and all texts of some fields are well-formed. -/
def fieldsUtf8 : List (Bytes × Value) → Bool
  | [] => true
  | (key, v) :: rest => Stencil.isUtf8 key && isUtf8 v && fieldsUtf8 rest

end

theorem allUtf8_iff
    {items : List Value} :
    allUtf8 items = true ↔ ∀ v ∈ items, v.isUtf8 = true := by
  induction items with
  | nil =>
      simp [allUtf8]
  | cons v rest ih =>
      rw [allUtf8, Bool.and_eq_true, ih, List.forall_mem_cons]

theorem fieldsUtf8_iff
    {fields : List (Bytes × Value)} :
    fieldsUtf8 fields = true ↔
      ∀ f ∈ fields, Stencil.isUtf8 f.1 = true ∧ f.2.isUtf8 = true := by
  induction fields with
  | nil =>
      simp [fieldsUtf8]
  | cons f rest ih =>
      rw [fieldsUtf8, Bool.and_eq_true, Bool.and_eq_true, ih, List.forall_mem_cons]

theorem isUtf8_record
    {fields aliases : List (Bytes × Value)} :
    (record fields aliases).isUtf8 = true ↔
      (∀ f ∈ fields, Stencil.isUtf8 f.1 = true ∧ f.2.isUtf8 = true) ∧
        ∀ f ∈ aliases, Stencil.isUtf8 f.1 = true ∧ f.2.isUtf8 = true := by
  rw [isUtf8, Bool.and_eq_true, fieldsUtf8_iff, fieldsUtf8_iff]

theorem isUtf8_field
    {fields aliases : List (Bytes × Value)}
    (h : (record fields aliases).isUtf8 = true)
    (key : Bytes) :
    ((field? fields aliases key).getD null).isUtf8 = true := by
  obtain ⟨hfields, haliases⟩ := isUtf8_record.1 h
  unfold field?
  cases hfield : fields.lookup key with
  | some v =>
      exact (hfields _ (Fields.mem_of_lookup hfield)).2
  | none =>
      cases halias : aliases.lookup key with
      | some v =>
          exact (haliases _ (Fields.mem_of_lookup halias)).2
      | none =>
          rfl

/-- The properties of a well-formed value are well-formed. -/
theorem isUtf8_get
    {v : Value} (key : Bytes)
    (h : v.isUtf8 = true) :
    (v.get key).isUtf8 = true := by
  cases v with
  | record fields aliases =>
      exact isUtf8_field h key
  | list items =>
      rw [get]
      split
      · rfl
      · split
        · split
          · rfl
          · next i _ _ =>
              cases hitem : items[i.toInt.toNat]? with
              | none =>
                  rfl
              | some item =>
                  exact allUtf8_iff.1 h item (List.mem_of_getElem? hitem)
        · rfl
  | text s | html s =>
      rw [get]
      split <;> rfl
  | null | bool | int | float | nodes =>
      rfl

theorem isUtf8_join
    {sep : Bytes} {parts : List Bytes}
    (hsep : Stencil.isUtf8 sep = true)
    (hparts : ∀ s ∈ parts, Stencil.isUtf8 s = true) :
    Stencil.isUtf8 (Bytes.join sep parts) = true := by
  fun_induction Bytes.join sep parts with
  | case1 =>
      rfl
  | case2 s =>
      exact hparts s List.mem_cons_self
  | case3 s t rest ih =>
      obtain ⟨hs, hrest⟩ := List.forall_mem_cons.1 hparts
      exact isUtf8_append (isUtf8_append hs hsep) (ih hrest)

mutual

/-- The text of a well-formed value is well-formed. -/
theorem isUtf8_toText
    {v : Value}
    (h : v.isUtf8 = true) :
    Stencil.isUtf8 v.toText = true := by
  cases v with
  | bool b =>
      exact isUtf8_utf8 _
  | int n =>
      exact isUtf8_of_ascii (Bytes.isAscii_decimalInt _)
  | float x =>
      exact isUtf8_of_ascii x.isAscii_plain
  | text s | html s =>
      exact h
  | list items =>
      exact isUtf8_join (by decide) (isUtf8_toTexts h)
  | nodes ns =>
      exact Node.isUtf8_textOf h
  | null | record =>
      rfl

theorem isUtf8_toTexts
    {items : List Value}
    (h : allUtf8 items = true) :
    ∀ s ∈ toTexts items, Stencil.isUtf8 s = true := by
  cases items with
  | nil =>
      exact fun s hs => absurd hs List.not_mem_nil
  | cons v rest =>
      rw [allUtf8, Bool.and_eq_true] at h
      exact List.forall_mem_cons.2 ⟨isUtf8_toText h.1, isUtf8_toTexts h.2⟩

end

theorem isUtf8_trust
    {v : Value}
    (h : v.isUtf8 = true) :
    v.trust.isUtf8 = true := by
  cases v with
  | null =>
      rfl
  | html | nodes =>
      exact h
  | bool | int | float | text | record | list =>
      exact isUtf8_toText h

/-- A well-formed value is shown as well-formed nodes. -/
theorem allUtf8_display
    {v : Value}
    (h : v.isUtf8 = true) :
    Node.allUtf8 v.display = true := by
  have hsingle : ∀ n : Node, n.isUtf8 = true → Node.allUtf8 [n] = true := by
    intro n hn
    rw [Node.allUtf8, hn]
    rfl
  cases v with
  | html s =>
      exact hsingle _ h
  | nodes ns =>
      exact h
  | null | bool | int | float | text | record | list =>
      exact hsingle _ (isUtf8_toText h)

theorem isUtf8_entries
    {v : Value}
    (h : v.isUtf8 = true) :
    ∀ f ∈ v.entries, Stencil.isUtf8 f.1 = true ∧ f.2.isUtf8 = true := by
  cases v with
  | record fields aliases =>
      refine List.forall_mem_map.2 fun f hf => ?_
      exact ⟨((isUtf8_record.1 h).1 f hf).1, isUtf8_field h f.1⟩
  | null | bool | int | float | text | html | list | nodes =>
      exact fun f hf => absurd hf List.not_mem_nil

theorem isUtf8_object
    {pairs : List (Bytes × Value)}
    (h : ∀ f ∈ pairs, Stencil.isUtf8 f.1 = true ∧ f.2.isUtf8 = true) :
    (object pairs).isUtf8 = true := by
  refine isUtf8_record.2 ⟨fun f hf => ?_, fun f hf => absurd hf List.not_mem_nil⟩
  rcases Fields.mem_insertAll hf with hf | hf
  · exact h f hf
  · cases hf

/-- What a partial is called with is well-formed. -/
theorem isUtf8_includedData
    {base : Value} {parameters : List (Bytes × Value)}
    (hbase : base.isUtf8 = true)
    (hparameters : ∀ a ∈ parameters, Stencil.isUtf8 a.1 = true ∧ a.2.isUtf8 = true) :
    (Render.includedData base parameters).isUtf8 = true := by
  unfold Render.includedData
  split
  · exact hbase
  · refine isUtf8_object fun f hf => ?_
    obtain ⟨v, hv, hentry⟩ := List.mem_flatMap.1 hf
    rcases List.mem_cons.1 hv with rfl | hv
    · exact isUtf8_entries hbase f hentry
    · obtain rfl := List.mem_singleton.1 hv
      exact isUtf8_entries (isUtf8_object hparameters) f hentry

end Value

/-! ## Contexts -/

/-- All values in some contexts are well-formed. -/
abbrev Scope.Encoded (s : Scope) : Prop := s.All fun v => v.isUtf8 = true

/-- Whether an operand is a path or a well-formed constant. -/
def Operand.isUtf8 : Input → Bool
  | .literal (.written (.text s)) => Stencil.isUtf8 s
  | .literal _ => true
  | .path _ => true

namespace Scope.Encoded

variable {s : Scope} (hs : s.Encoded)

include hs in
theorem data :
    s.data.isUtf8 = true :=
  Scope.All.data (P := fun v => v.isUtf8 = true) rfl hs

include hs in
theorem lookup
    (p : Path) :
    (s.lookup p).isUtf8 = true :=
  Scope.All.lookup (P := fun v => v.isUtf8 = true) rfl (fun _ key h => Value.isUtf8_get key h) hs
    fun _ _ h => Value.isUtf8_trust h

include hs in
/-- An operand has a well-formed value. -/
theorem value
    {a : Input}
    (ha : Operand.isUtf8 a = true) :
    (a.value s).isUtf8 = true := by
  cases a with
  | path p =>
      exact hs.lookup p
  | literal k =>
      cases k with
      | written l =>
          cases l with
          | text t =>
              exact ha
          | int | float | bool | null =>
              rfl
      | tally n =>
          rfl

end Scope.Encoded

end Stencil
