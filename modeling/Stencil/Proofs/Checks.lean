import Stencil.Bytes

/-!
# Checks in sequence

When a sequence of checks succeeds, and with what result.  `Corresponds` compares two sequences that
fail alike or have related results.
-/

namespace Stencil

section Checks

variable {ε α β : Type}

theorem ok_bind
    (a : α)
    (f : α → Except ε β) :
    (Except.ok a >>= f) = f a :=
  rfl

theorem ok_mapError
    {δ : Type}
    (a : α)
    (f : ε → δ) :
    (Except.ok a).mapError f = .ok a :=
  rfl

theorem error_mapError
    {δ : Type}
    (e : ε)
    (f : ε → δ) :
    (Except.error e : Except ε α).mapError f = .error (f e) :=
  rfl

theorem bind_eq_ok_iff
    {x : Except ε α}
    {f : α → Except ε β}
    {b : β} :
    (x >>= f) = .ok b ↔ ∃ a, x = .ok a ∧ f a = .ok b := by
  cases x with
  | error e =>
      simp [bind, Except.bind]
  | ok a =>
      simp [bind, Except.bind]

theorem pure_eq_ok_iff
    {a b : α} :
    (pure a : Except ε α) = .ok b ↔ b = a := by
  constructor
  · intro h
    cases h
    rfl
  · rintro rfl
    rfl

theorem map_eq_ok_iff
    {x : Except ε α}
    {f : α → β}
    {b : β} :
    x.map f = .ok b ↔ ∃ a, x = .ok a ∧ f a = b := by
  cases x with
  | error e =>
      simp [Except.map]
  | ok a =>
      simp [Except.map]

theorem mapError_eq_ok_iff
    {δ : Type}
    {x : Except ε α}
    {f : ε → δ}
    {a : α} :
    x.mapError f = .ok a ↔ x = .ok a := by
  cases x with
  | error e =>
      constructor
      · intro h
        cases h
      · intro h
        cases h
  | ok b =>
      constructor
      · intro h
        cases h
        rfl
      · intro h
        cases h
        rfl

theorem eq_ok_of_toOption_eq_some
    {x : Except ε α}
    {a : α}
    (h : x.toOption = some a) :
    x = .ok a := by
  cases x with
  | error e =>
      cases h
  | ok b =>
      cases h
      rfl

theorem isOk_eq_true_iff
    {x : Except ε α} :
    x.isOk = true ↔ ∃ a, x = .ok a := by
  cases x <;> simp [Except.isOk, Except.toBool]

theorem isOk_eq_false_iff
    {x : Except ε α} :
    x.isOk = false ↔ ∃ e, x = .error e := by
  cases x <;> simp [Except.isOk, Except.toBool]

/-- The failure of a check, if it fails. -/
def failure? : Except ε α → Option ε
  | .error e => some e
  | .ok _ => none

theorem eq_error_of_failure?_eq_some
    {x : Except ε α}
    {e : ε}
    (h : failure? x = some e) :
    x = .error e := by
  cases x with
  | error e' =>
      cases h
      rfl
  | ok a =>
      cases h

/-- A check whose success is known to be `P`, with result `f`, made of every entry of a list. -/
theorem mapM_eq_ok_iff
    {check : α → Except ε β}
    {P : α → Prop}
    {f : α → β}
    (hcheck : ∀ a b, check a = .ok b ↔ P a ∧ b = f a)
    (l : List α)
    (bs : List β) :
    l.mapM check = .ok bs ↔ (∀ a ∈ l, P a) ∧ bs = l.map f := by
  induction l generalizing bs with
  | nil =>
      simp [pure_eq_ok_iff]
  | cons a rest ih =>
      simp only [List.mapM_cons, bind_eq_ok_iff, pure_eq_ok_iff, hcheck, ih]
      constructor
      · rintro ⟨b, ⟨hb, rfl⟩, cs, ⟨hrest, rfl⟩, rfl⟩
        exact ⟨by simpa using ⟨hb, hrest⟩, rfl⟩
      · rintro ⟨hall, rfl⟩
        have hrest : ∀ c ∈ rest, P c := fun c hc => hall c (List.mem_cons_of_mem a hc)
        exact ⟨f a, ⟨hall a List.mem_cons_self, rfl⟩, rest.map f, ⟨hrest, rfl⟩, rfl⟩

/-- A check that succeeds for every entry of a list succeeds for the list. -/
theorem mapM_eq_ok_of_forall
    {check : α → Except ε β}
    {f : α → β}
    {l : List α}
    (h : ∀ a ∈ l, check a = .ok (f a)) :
    l.mapM check = .ok (l.map f) := by
  induction l with
  | nil =>
      rfl
  | cons a rest ih =>
      have hrest := ih fun b hb => h b (List.mem_cons_of_mem a hb)
      rw [List.mapM_cons, h a List.mem_cons_self, ok_bind, hrest, ok_bind]
      rfl

/-- A check that succeeds for a list succeeds for each of its entries. -/
theorem ok_of_mem_mapM
    {check : α → Except ε β}
    {l : List α}
    {bs : List β}
    (h : l.mapM check = .ok bs)
    {a : α}
    (ha : a ∈ l) :
    ∃ b, check a = .ok b := by
  induction l generalizing bs with
  | nil =>
      cases ha
  | cons c rest ih =>
      simp only [List.mapM_cons, bind_eq_ok_iff] at h
      obtain ⟨b, hb, cs, hcs, _⟩ := h
      rcases List.mem_cons.1 ha with rfl | hrest
      · exact ⟨b, hb⟩
      · exact ih hcs hrest

/-- The results of a check of a list are those of its entries. -/
theorem mem_mapM_iff
    {check : α → Except ε β}
    {l : List α}
    {bs : List β}
    (h : l.mapM check = .ok bs)
    (b : β) :
    b ∈ bs ↔ ∃ a ∈ l, check a = .ok b := by
  induction l generalizing bs with
  | nil =>
      simp only [List.mapM_nil, pure_eq_ok_iff] at h
      simp [h]
  | cons c rest ih =>
      simp only [List.mapM_cons, bind_eq_ok_iff, pure_eq_ok_iff] at h
      obtain ⟨d, hd, ds, hds, rfl⟩ := h
      rw [List.mem_cons, ih hds]
      constructor
      · rintro (rfl | ⟨a, ha, hab⟩)
        · exact ⟨c, List.mem_cons_self, hd⟩
        · exact ⟨a, List.mem_cons_of_mem c ha, hab⟩
      · rintro ⟨a, ha, hab⟩
        rcases List.mem_cons.1 ha with rfl | ha
        · rw [hd] at hab
          exact Or.inl (Except.ok.inj hab).symm
        · exact Or.inr ⟨a, ha, hab⟩

/-- A check of a list that fails fails for one of its entries. -/
theorem error_of_mapM_eq_error
    {check : α → Except ε β}
    {l : List α}
    {e : ε}
    (h : l.mapM check = .error e) :
    ∃ a ∈ l, check a = .error e := by
  induction l with
  | nil =>
      cases h
  | cons a rest ih =>
      rw [List.mapM_cons] at h
      cases ha : check a with
      | error e' =>
          rw [ha] at h
          cases h
          exact ⟨a, List.mem_cons_self, ha⟩
      | ok b =>
          rw [ha, ok_bind] at h
          cases hrest : rest.mapM check with
          | error e' =>
              rw [hrest] at h
              cases h
              obtain ⟨c, hc, hcheck⟩ := ih hrest
              exact ⟨c, List.mem_cons_of_mem a hc, hcheck⟩
          | ok bs =>
              rw [hrest] at h
              cases h

/-- What a check keeps of an entry it keeps of a list. -/
theorem map_eq_of_mapM
    {γ : Type} {check : α → Except ε β} {key : α → γ} {view : β → γ}
    {l : List α} {bs : List β}
    (hcheck : ∀ a b, check a = .ok b → view b = key a)
    (h : l.mapM check = .ok bs) :
    bs.map view = l.map key := by
  induction l generalizing bs with
  | nil =>
      cases h
      rfl
  | cons a rest ih =>
      simp only [List.mapM_cons, bind_eq_ok_iff, pure_eq_ok_iff] at h
      obtain ⟨b, hb, cs, hcs, rfl⟩ := h
      rw [List.map_cons, List.map_cons, hcheck a b hb, ih hcs]

/-- The check of a value that may be missing, when the success of the check is known. -/
theorem optionMapM_eq_ok_iff
    {check : α → Except ε β}
    {P : α → Prop}
    {f : α → β}
    (hcheck : ∀ a b, check a = .ok b ↔ P a ∧ b = f a)
    (o : Option α)
    (result : Option β) :
    o.mapM check = .ok result ↔ (∀ a ∈ o, P a) ∧ result = o.map f := by
  cases o with
  | none =>
      simp [pure_eq_ok_iff]
  | some a =>
      have hmap : (some a).mapM check = (do return some (← check a)) := rfl
      rw [hmap]
      simp only [bind_eq_ok_iff, pure_eq_ok_iff, hcheck]
      constructor
      · rintro ⟨b, ⟨hb, rfl⟩, rfl⟩
        exact ⟨by simpa using hb, rfl⟩
      · rintro ⟨ha, rfl⟩
        exact ⟨f a, ⟨ha a rfl, rfl⟩, rfl⟩

/-- Two results that are related, or the same failure. -/
inductive Corresponds (R : α → β → Prop) : Except ε α → Except ε β → Prop where
  | ok {a : α} {b : β} : R a b → Corresponds R (.ok a) (.ok b)
  | error (e : ε) : Corresponds R (.error e) (.error e)

namespace Corresponds

variable {γ δ ζ : Type}

theorem bind
    {R : α → β → Prop} {S : γ → δ → Prop} {x : Except ε α} {y : Except ε β}
    {f : α → Except ε γ} {g : β → Except ε δ}
    (h : Corresponds R x y)
    (hfg : ∀ a b, R a b → Corresponds S (f a) (g b)) :
    Corresponds S (x >>= f) (y >>= g) := by
  cases h with
  | ok hab =>
      exact hfg _ _ hab
  | error e =>
      exact .error e

/-- Results that agree up to a view. -/
theorem of_map_eq
    {x : Except ε α} {y : Except ε β} {f : α → γ} {g : β → γ}
    (h : x.map f = y.map g) :
    Corresponds (fun a b => f a = g b ∧ x = .ok a ∧ y = .ok b) x y := by
  cases x with
  | ok a =>
      cases y with
      | ok b =>
          exact .ok ⟨Except.ok.inj h, rfl, rfl⟩
      | error e =>
          cases h
  | error e =>
      cases y with
      | ok b =>
          cases h
      | error e' =>
          cases h
          exact .error e

theorem mapError
    {R : α → β → Prop} {x : Except ε α} {y : Except ε β}
    (h : Corresponds R x y)
    (f : ε → ζ) :
    Corresponds R (x.mapError f) (y.mapError f) := by
  cases h with
  | ok hab =>
      exact .ok hab
  | error e =>
      exact .error (f e)

end Corresponds

/-- Two computations that agree up to a view go on to agree. -/
theorem map_bind_congr
    {α' β' γ δ : Type} {x : Except ε α} {y : Except ε β} {f : α → γ} {f' : β → γ}
    {g : α → Except ε α'} {g' : β → Except ε β'} {h : α' → δ} {h' : β' → δ}
    (hxy : x.map f = y.map f')
    (hg : ∀ a b, f a = f' b → (g a).map h = (g' b).map h') :
    (x >>= g).map h = (y >>= g').map h' := by
  cases x with
  | error e =>
      cases y with
      | error e' =>
          exact congrArg Except.error (Except.error.inj hxy)
      | ok b =>
          cases hxy
  | ok a =>
      cases y with
      | error e' =>
          cases hxy
      | ok b =>
          exact hg a b (Except.ok.inj hxy)

/-- A list of results seen one by one. -/
theorem map_mapM
    {γ : Type} {f : α → Except ε β} {view : β → γ} {g : α → Except ε γ}
    {l : List α}
    (h : ∀ a ∈ l, (f a).map view = g a) :
    (l.mapM f).map (List.map view) = l.mapM g := by
  induction l with
  | nil =>
      rfl
  | cons a rest ih =>
      obtain ⟨ha, hrest⟩ := List.forall_mem_cons.1 h
      rw [List.mapM_cons, List.mapM_cons, ← ha, ← ih hrest]
      cases f a with
      | error e =>
          rfl
      | ok b =>
          cases rest.mapM f <;> rfl

end Checks

end Stencil
