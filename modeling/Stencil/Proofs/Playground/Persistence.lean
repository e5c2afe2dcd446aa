import Stencil.Proofs.Engine.Loading
import Stencil.Proofs.Playground.Change
import Stencil.Proofs.Store

/-!
# What a failed rendering leaves in the store

With a store, the partials of a snapshot are saved before they are loaded, and what they are emitted
as is saved file by file.  A rendering that fails has saved what came before the failure.

Algorithm: `prepare` has four exits, one for each of its stages, and `Leaves` says for each of them
what is in both tables afterwards.  All other facts follow from these four cases.

Results: `failed_render_keeps_partials`, the store after a failure, when it is the one before, and
how a partial that does not compile fails all later polls although its file is gone.
-/

namespace Stencil

/-! ## The exits of a rendering -/

namespace Playground

/-- The engine with all partials of a store. -/
def loading (pg : Playground) (s : Store) : Except LoadError Engine :=
  pg.engine.loadPartials (.ok s.partials)

/-- A partial with the file that it is emitted as. -/
def program (e : Engine) (p : Bytes × Bytes) : Except BuildError (Bytes × Bytes) := do
  let title := if p.1.isEmpty then Engine.unnamed else p.1
  return (p.1, ← e.emit p.2 ⟨title, utf8 "partials", Identifier.ofFile p.1⟩)

/-- What can come of a rendering with partials in the order of saving and in that of emitting, and
the store that is left: a name is refused and what stands before it is saved; all partials are saved
and do not load; they load, but one of them is not emitted, and the files before it are saved; or all
is saved, and the page is rendered or fails. -/
inductive Leaves (pg : Playground) (files : Snapshot) (saving emitting : List (Bytes × Bytes))
    (s : Store) : Except Failure Bytes → Store → Prop where
  | refused
      {saved rest : List (Bytes × Bytes)} {p : Bytes × Bytes} {e : StoreError}
      (split : saving = saved ++ p :: rest)
      (accepted : ∀ q ∈ saved, Table.Accepts q.1)
      (refuses : ∀ t, Table.put p.1 p.2 t = .error e) :
      Leaves pg files saving emitting s (.error (.store e)) (s.keep saved [])
  | unloaded
      {e : LoadError}
      (accepted : ∀ q ∈ saving, Table.Accepts q.1)
      (fails : pg.loading (s.keep saving []) = .error e) :
      Leaves pg files saving emitting s (.error (.load e)) (s.keep saving [])
  | unemitted
      {engine : Engine} {done rest codes : List (Bytes × Bytes)} {p : Bytes × Bytes}
      {e : BuildError}
      (accepted : ∀ q ∈ saving, Table.Accepts q.1)
      (loads : pg.loading (s.keep saving []) = .ok engine)
      (split : emitting = done ++ p :: rest)
      (emitted : done.mapM (program engine) = .ok codes)
      (fails : program engine p = .error e) :
      Leaves pg files saving emitting s (.error (.build e)) (s.keep saving codes)
  | prepared
      {engine : Engine} {codes : List (Bytes × Bytes)}
      (accepted : ∀ q ∈ saving, Table.Accepts q.1)
      (loads : pg.loading (s.keep saving []) = .ok engine)
      (emitted : emitting.mapM (program engine) = .ok codes) :
      Leaves pg files saving emitting s (pg.page files engine) (s.keep saving codes)

variable {pg : Playground} {files : Snapshot} {partials saving emitting : List (Bytes × Bytes)}
variable {s s' : Store}

/-- Saving stops at the first name that is refused. -/
theorem savePartials_cases
    (partials : List (Bytes × Bytes)) (s : Store) :
    ((∀ q ∈ partials, Table.Accepts q.1) ∧
      savePartials s partials = (none, s.keep partials [])) ∨
    ∃ saved p rest e, partials = saved ++ p :: rest ∧ (∀ q ∈ saved, Table.Accepts q.1) ∧
      (∀ t, Table.put p.1 p.2 t = .error e) ∧
      savePartials s partials = (some e, s.keep saved []) := by
  induction partials generalizing s with
  | nil =>
      exact Or.inl ⟨by simp, rfl⟩
  | cons p rest ih =>
      obtain ⟨name, source⟩ := p
      by_cases hname : Table.Accepts name
      · have hset := Store.setPartial_of_accepts hname source s
        rcases ih (s.keep [(name, source)] []) with
          ⟨hall, hrest⟩ | ⟨saved, p, rest, e, rfl, hall, hp, hrest⟩
        · refine Or.inl ⟨List.forall_mem_cons.2 ⟨hname, hall⟩, ?_⟩
          simp only [savePartials, hset]
          exact hrest
        · refine Or.inr ⟨(name, source) :: saved, p, rest, e, rfl,
            List.forall_mem_cons.2 ⟨hname, hall⟩, hp, ?_⟩
          simp only [savePartials, hset]
          exact hrest
      · obtain ⟨e, he⟩ := Table.put_of_not_accepts hname
        refine Or.inr ⟨[], (name, source), rest, e, rfl, by simp, he source, ?_⟩
        have hset : s.setPartial name source = .error e := by
          rw [Store.setPartial, he]
          rfl
        simp only [savePartials, hset]
        rfl

theorem program_eq_of_emit
    {e : Engine} {name source : Bytes} {result : Except BuildError Bytes}
    (h : e.emit source ⟨if name.isEmpty then Engine.unnamed else name, utf8 "partials",
      Identifier.ofFile name⟩ = result) :
    program e (name, source) = result.map fun code => (name, code) := by
  rw [program, h]
  cases result <;> rfl

/-- The names that were saved as partials are not refused now, so saving the files that partials are
emitted as stops only at a partial that is not emitted. -/
theorem savePrograms_cases
    (e : Engine)
    (hkeys : ∀ q ∈ partials, Table.Accepts q.1)
    (s : Store) :
    (∃ codes, partials.mapM (program e) = .ok codes ∧
      savePrograms e s partials = (none, s.keep [] codes)) ∨
    ∃ done p rest codes failure, partials = done ++ p :: rest ∧
      done.mapM (program e) = .ok codes ∧ program e p = .error failure ∧
      savePrograms e s partials = (some (.build failure), s.keep [] codes) := by
  induction partials generalizing s with
  | nil =>
      exact Or.inl ⟨[], rfl, rfl⟩
  | cons p rest ih =>
      obtain ⟨name, source⟩ := p
      obtain ⟨hname, hrest⟩ := List.forall_mem_cons.1 hkeys
      cases hemit : e.emit source ⟨if name.isEmpty then Engine.unnamed else name, utf8 "partials",
          Identifier.ofFile name⟩ with
      | error failure =>
          refine Or.inr ⟨[], (name, source), rest, [], failure, rfl, rfl,
            program_eq_of_emit hemit, ?_⟩
          simp only [savePrograms, hemit]
          rfl
      | ok code =>
          have hprogram : program e (name, source) = .ok (name, code) := program_eq_of_emit hemit
          have hset := Store.setProgram_of_accepts hname code s
          rcases ih hrest (s.keep [] [(name, code)]) with
            ⟨codes, hcodes, hsave⟩ | ⟨done, p, rest, codes, failure, rfl, hcodes, hp, hsave⟩
          · refine Or.inl ⟨(name, code) :: codes, ?_, ?_⟩
            · rw [List.mapM_cons, hprogram, hcodes]
              rfl
            · simp only [savePrograms, hemit, hset]
              exact hsave
          · refine Or.inr ⟨(name, source) :: done, p, rest, (name, code) :: codes, failure, rfl,
              ?_, hp, ?_⟩
            · rw [List.mapM_cons, hprogram, hcodes]
              rfl
            · simp only [savePrograms, hemit, hset]
              exact hsave

/-- A preparation with a store and the page after it end in one of the four exits. -/
theorem leaves_prepare
    (pg : Playground) (files : Snapshot)
    (hperm : emitting.Perm saving)
    (s : Store) :
    ∃ prepared s', pg.prepare saving emitting (some s) = (prepared, some s') ∧
      Leaves pg files saving emitting s (prepared >>= pg.page files) s' := by
  rcases savePartials_cases saving s with
    ⟨hall, hsave⟩ | ⟨saved, p, rest, e, hsplit, hall, hp, hsave⟩
  · cases hload : pg.loading (s.keep saving []) with
    | error e =>
        refine ⟨.error (.load e), _, ?_, .unloaded hall hload⟩
        rw [loading] at hload
        simp only [prepare, hsave, hload]
    | ok engine =>
        have hkeys : ∀ q ∈ emitting, Table.Accepts q.1 := fun q hq => hall q (hperm.mem_iff.1 hq)
        rcases savePrograms_cases engine hkeys (s.keep saving []) with
          ⟨codes, hcodes, hprograms⟩ | ⟨done, p, rest, codes, e, hsplit, hcodes, hp, hprograms⟩
        · refine ⟨.ok engine, _, ?_, .prepared hall hload hcodes⟩
          rw [loading] at hload
          simp only [prepare, hsave, hload, hprograms]
          rfl
        · refine ⟨.error (.build e), _, ?_, .unemitted hall hload hsplit hcodes hp⟩
          rw [loading] at hload
          simp only [prepare, hsave, hload, hprograms]
          rfl
  · refine ⟨.error (.store e), _, ?_, .refused hsplit hall hp⟩
    simp only [prepare, hsave]

theorem Orders.perm_emit_save
    (o : Orders) (partials : List (Bytes × Bytes)) :
    (o.emit.arrange partials).Perm (o.save.arrange partials) :=
  (o.emit.perm partials).trans (o.save.perm partials).symm

/-- A rendering with a store does so in whatever orders it takes. -/
theorem leaves_render
    (pg : Playground) (o : Orders) (files : Snapshot) (s : Store) :
    let partials := pg.partialsOf (o.gather.arrange files)
    ∃ outcome s', pg.render o files (some s) = (outcome, some s') ∧
      Leaves pg files (o.save.arrange partials) (o.emit.arrange partials) s outcome s' := by
  intro partials
  obtain ⟨prepared, s', hprepare, hleaves⟩ :=
    pg.leaves_prepare files (o.perm_emit_save partials) s
  refine ⟨prepared >>= pg.page files, s', ?_, hleaves⟩
  cases prepared <;> simp only [render, partials, hprepare] <;> rfl

theorem nodup_partialsOf
    (pg : Playground) (files : List (Bytes × Bytes)) :
    ((pg.partialsOf files).map Prod.fst).Nodup :=
  nodup_gathered _

theorem nodup_arrange
    (o : Order)
    (h : (partials.map Prod.fst).Nodup) :
    ((o.arrange partials).map Prod.fst).Nodup :=
  ((o.perm partials).map Prod.fst).nodup_iff.2 h

/-- The names of the partials do not depend on the order of the files. -/
theorem mem_names_arrange_iff
    (pg : Playground) (o : Order) (files : List (Bytes × Bytes)) (name : Bytes) :
    name ∈ (pg.partialsOf (o.arrange files)).map Prod.fst ↔
      name ∈ (pg.partialsOf files).map Prod.fst := by
  have hnamed : ∀ l : List (Bytes × Bytes), name ∈ (Fields.insertAll l []).map Prod.fst ↔
      name ∈ l.map Prod.fst := by
    intro l
    rw [← Fields.isSome_lookup_iff, Fields.isSome_lookup_insertAll]
    simp
  rw [partialsOf, partialsOf, hnamed, hnamed]
  exact (((o.perm files).filterMap _).map Prod.fst).mem_iff

/-- The files emitted for the first few partials have their names. -/
theorem prefix_of_mapM_program
    {engine : Engine} {done codes : List (Bytes × Bytes)}
    (hdone : done <+: partials)
    (h : done.mapM (program engine) = .ok codes) :
    codes.map Prod.fst <+: partials.map Prod.fst := by
  have hnames : codes.map Prod.fst = done.map Prod.fst := by
    refine map_eq_of_mapM (fun p c hc => ?_) h
    rw [program, bind_eq_ok_iff] at hc
    obtain ⟨code, _, hpair⟩ := hc
    cases hpair
    rfl
  exact hnames ▸ hdone.map Prod.fst

theorem accepts_of_prefix
    {codes : List (Bytes × Bytes)}
    (hall : ∀ q ∈ partials, Table.Accepts q.1)
    (h : codes.map Prod.fst <+: partials.map Prod.fst) :
    ∀ c ∈ codes, Table.Accepts c.1 := by
  intro c hc
  obtain ⟨q, hq, hname⟩ := List.mem_map.1 (h.subset (List.mem_map_of_mem hc))
  exact hname ▸ hall q hq

/-- Every exit leaves the first few of the partials saved, and the files of the first few. -/
theorem Leaves.exists_keep
    {outcome : Except Failure Bytes}
    (h : Leaves pg files saving emitting s outcome s')
    (hperm : emitting.Perm saving) :
    ∃ saved codes, s' = s.keep saved codes ∧ saved <+: saving ∧
      (∀ q ∈ saved, Table.Accepts q.1) ∧ ∀ c ∈ codes, Table.Accepts c.1 := by
  have hkeys : (∀ q ∈ saving, Table.Accepts q.1) → ∀ q ∈ emitting, Table.Accepts q.1 :=
    fun hall q hq => hall q (hperm.mem_iff.1 hq)
  cases h with
  | refused hsplit hall _ =>
      exact ⟨_, [], rfl, ⟨_, hsplit.symm⟩, hall, by simp⟩
  | unloaded hall _ =>
      exact ⟨_, [], rfl, List.prefix_refl _, hall, by simp⟩
  | unemitted hall _ hsplit hcodes _ =>
      have hnames := prefix_of_mapM_program ⟨_, hsplit.symm⟩ hcodes
      exact ⟨_, _, rfl, List.prefix_refl _, hall, accepts_of_prefix (hkeys hall) hnames⟩
  | prepared hall _ hcodes =>
      have hnames := prefix_of_mapM_program (List.prefix_refl _) hcodes
      exact ⟨_, _, rfl, List.prefix_refl _, hall, accepts_of_prefix (hkeys hall) hnames⟩

/-- A page fails for its data, for its template, while it is rendered, or when it is written. -/
theorem page_eq_error_cases
    {engine : Engine} {failure : Failure}
    (h : pg.page files engine = .error failure) :
    (∃ name, failure = .document name) ∨ (∃ d, failure = .build (.template d)) ∨
      (∃ e, failure = .render e) ∨ failure = .unwritable := by
  rw [page] at h
  cases hdata : pg.dataOf files with
  | error e =>
      rw [hdata] at h
      cases h
      rw [dataOf] at hdata
      split at hdata
      · cases hdata
      · split at hdata
        · cases hdata
        · cases hdata
          exact Or.inl ⟨_, rfl⟩
  | ok data =>
      rw [hdata, ok_bind] at h
      cases hcompile : engine.compile pg.template ((files.lookup pg.template).getD []) with
      | error d =>
          rw [hcompile, error_mapError] at h
          cases h
          exact Or.inr (Or.inl ⟨d, rfl⟩)
      | ok p =>
          rw [hcompile, ok_mapError, ok_bind] at h
          cases hrender : engine.render p.ops data with
          | error e =>
              rw [hrender, error_mapError] at h
              cases h
              exact Or.inr (Or.inr (Or.inl ⟨e, rfl⟩))
          | ok nodes =>
              rw [hrender, ok_mapError, ok_bind] at h
              split at h
              · cases h
              · cases h
                exact Or.inr (Or.inr (Or.inr rfl))

/-- Partials that do not load are all saved, and nothing else is. -/
theorem Leaves.of_load
    {outcome : Except Failure Bytes} {e : LoadError}
    (h : Leaves pg files saving emitting s outcome s')
    (houtcome : outcome = .error (.load e)) :
    s' = s.keep saving [] ∧ pg.loading s' = .error e := by
  cases h with
  | refused _ _ _ =>
      cases houtcome
  | unloaded _ hfails =>
      cases houtcome
      exact ⟨rfl, hfails⟩
  | unemitted _ _ _ _ _ =>
      cases houtcome
  | prepared _ _ _ =>
      rcases page_eq_error_cases houtcome with
        ⟨_, hf⟩ | ⟨_, hf⟩ | ⟨_, hf⟩ | hf <;> cases hf

/-- A template that is not emitted or not compiled leaves all partials saved, and the files of the
first few. -/
theorem Leaves.of_build
    {outcome : Except Failure Bytes} {e : BuildError}
    (h : Leaves pg files saving emitting s outcome s')
    (houtcome : outcome = .error (.build e)) :
    ∃ codes, s' = s.keep saving codes ∧ codes.map Prod.fst <+: emitting.map Prod.fst := by
  cases h with
  | refused _ _ _ =>
      cases houtcome
  | unloaded _ _ =>
      cases houtcome
  | unemitted _ _ hsplit hcodes _ =>
      exact ⟨_, rfl, prefix_of_mapM_program ⟨_, hsplit.symm⟩ hcodes⟩
  | prepared _ _ hcodes =>
      exact ⟨_, rfl, prefix_of_mapM_program (List.prefix_refl _) hcodes⟩

/-- All of some partials are saved, and every other one is as before. -/
def Saves (partials : List (Bytes × Bytes)) (s s' : Store) : Prop :=
  ∀ name, s'.partials.lookup name = (partials.lookup name).or (s.partials.lookup name)

/-- Saving changes nothing exactly when all was saved before. -/
theorem keep_eq_self_iff
    {codes : List (Bytes × Bytes)}
    (hs : s.Orderly)
    (hpartials : (partials.map Prod.fst).Nodup)
    (hcodes : (codes.map Prod.fst).Nodup) :
    s.keep partials codes = s ↔
      (∀ p ∈ partials, s.partials.lookup p.1 = some p.2) ∧
        ∀ c ∈ codes, s.programs.lookup c.1 = some c.2 := by
  rw [← hs.partials.insertEach_eq_self_iff hpartials, ← hs.programs.insertEach_eq_self_iff hcodes]
  cases s
  simp only [Store.keep, Store.mk.injEq]

/-! ## A partial that stays in the way -/

/-- A text that does not compile, whatever partials there are. -/
def Hopeless (pg : Playground) (name source : Bytes) : Prop :=
  ∀ names : Bytes → Bool, ∃ d, pg.engine.compileWith names name source = .error d

/-- A store holds a partial that does not compile, and would not with some further names. -/
structure Blocked (pg : Playground) (coming : Bytes → Prop) (name source : Bytes) (s : Store) :
    Prop where
  orderly : s.Orderly
  saved : s.partials.lookup name = some source
  fails : ∀ names : Bytes → Bool, (∀ n ∈ s.partials.map Prod.fst, names n = true) →
    (∀ n, names n = true → n ∈ s.partials.map Prod.fst ∨ coming n) →
    ∃ d, pg.engine.compileWith names name source = .error d

variable {coming : Bytes → Prop} {name source : Bytes}

theorem textOf_eq_lookup
    {listed : List (Bytes × Bytes)}
    (h : (listed.map Prod.fst).Nodup)
    (name : Bytes) :
    textOf listed name = listed.lookup name :=
  (Fields.lookup_eq_of_perm h (List.reverse_perm listed).symm name).symm

theorem Blocked.not_loads
    {engine : Engine}
    (h : Blocked pg coming name source s) :
    pg.loading s ≠ .ok engine := by
  intro hload
  obtain ⟨d, hd⟩ := h.fails (fun n => (s.partials.map Prod.fst).contains n)
    (fun n hn => List.contains_iff_mem.2 hn) (fun n hn => Or.inl (List.contains_iff_mem.1 hn))
  have htext : textOf s.partials name = some source :=
    (textOf_eq_lookup h.orderly.partials.nodup name).trans h.saved
  rcases pg.engine.loadPartials_cases (.ok s.partials) with
    ⟨failure, hfails, _⟩ | ⟨listed, e', hlisted, _, hloaded⟩
  · exact absurd (hload.symm.trans hfails) (by simp)
  · cases hlisted
    exact hloaded.not_loadFault (.template htext hd)

/-- Other partials may be saved beside the one that is in the way. -/
theorem Blocked.keep
    {saved codes : List (Bytes × Bytes)}
    (h : Blocked pg coming name source s)
    (horderly : (s.keep saved codes).Orderly)
    (hdistinct : (saved.map Prod.fst).Nodup)
    (hname : name ∉ saved.map Prod.fst)
    (hcoming : ∀ n ∈ saved.map Prod.fst, coming n) :
    Blocked pg coming name source (s.keep saved codes) where
  orderly := horderly
  saved := by
    have hlookup := Table.lookup_insertEach hdistinct s.partials name
    rw [Fields.lookup_eq_none_of_not_mem hname, Option.none_or] at hlookup
    exact hlookup.trans h.saved
  fails := by
    intro names hall honly
    refine h.fails names (fun n hn => ?_) (fun n hn => ?_)
    · exact hall n ((Table.mem_keys_insertEach saved s.partials n).2 (Or.inr hn))
    · rcases honly n hn with hkept | hn
      · rcases (Table.mem_keys_insertEach saved s.partials n).1 hkept with hsaved | hold
        · exact Or.inr (hcoming n hsaved)
        · exact Or.inl hold
      · exact Or.inr hn

/-- Where other partials are saved, every exit is a failure and leaves the one that is in the way. -/
theorem Leaves.of_blocked
    {outcome : Except Failure Bytes}
    (hleaves : Leaves pg files saving emitting s outcome s')
    (h : Blocked pg coming name source s)
    (hperm : emitting.Perm saving)
    (hdistinct : (saving.map Prod.fst).Nodup)
    (hname : name ∉ saving.map Prod.fst)
    (hcoming : ∀ n ∈ saving.map Prod.fst, coming n) :
    (∃ failure, outcome = .error failure) ∧ Blocked pg coming name source s' := by
  have hkeep : ∀ {saved codes : List (Bytes × Bytes)}, saved <+: saving →
      (s.keep saved codes).Orderly → Blocked pg coming name source (s.keep saved codes) := by
    intro saved codes hsaved horderly
    have hfew := hsaved.map Prod.fst
    exact h.keep horderly (hfew.sublist.nodup hdistinct) (fun hmem => hname (hfew.subset hmem))
      fun n hn => hcoming n (hfew.subset hn)
  have hloading : ∀ engine, (∀ q ∈ saving, Table.Accepts q.1) →
      pg.loading (s.keep saving []) ≠ .ok engine := fun engine hall =>
    (hkeep (List.prefix_refl _) (h.orderly.keep hall (by simp))).not_loads
  constructor
  · cases hleaves with
    | refused _ _ _ =>
        exact ⟨_, rfl⟩
    | unloaded _ _ =>
        exact ⟨_, rfl⟩
    | unemitted hall hload _ _ _ =>
        exact absurd hload (hloading _ hall)
    | prepared hall hload _ =>
        exact absurd hload (hloading _ hall)
  · obtain ⟨saved, codes, rfl, hsaved, haccepted, hcodes⟩ := hleaves.exists_keep hperm
    exact hkeep hsaved (h.orderly.keep haccepted hcodes)

/-- A rendering of other partials fails and leaves the one that is in the way. -/
theorem render_of_blocked
    (h : Blocked pg coming name source s)
    (o : Orders)
    (hname : name ∉ (pg.partialsOf files).map Prod.fst)
    (hcoming : ∀ n ∈ (pg.partialsOf files).map Prod.fst, coming n) :
    ∃ failure s', pg.render o files (some s) = (.error failure, some s') ∧
      Blocked pg coming name source s' := by
  obtain ⟨outcome, s', hrender, hleaves⟩ := pg.leaves_render o files s
  generalize hpartials : pg.partialsOf (o.gather.arrange files) = partials at hleaves
  have hdistinct := hpartials ▸ pg.nodup_partialsOf (o.gather.arrange files)
  have hnames : ∀ n ∈ (o.save.arrange partials).map Prod.fst,
      n ∈ (pg.partialsOf files).map Prod.fst := by
    intro n hn
    rw [← mem_names_arrange_iff pg o.gather, hpartials]
    exact ((o.save.perm partials).map Prod.fst).mem_iff.1 hn
  obtain ⟨⟨failure, rfl⟩, hblocked⟩ := hleaves.of_blocked h (o.perm_emit_save partials)
    (nodup_arrange o.save hdistinct) (fun hmem => hname (hnames _ hmem))
    fun n hn => hcoming n (hnames n hn)
  exact ⟨failure, s', hrender, hblocked⟩

/-- One poll prints no page and leaves the partial that is in the way. -/
theorem poll_of_blocked
    (h : Blocked pg coming name source s)
    (last : Option Bytes) {p : Poll}
    (hp : ∀ read, p.read = .ok read → name ∉ (pg.partialsOf read).map Prod.fst ∧
      ∀ n ∈ (pg.partialsOf read).map Prod.fst, coming n) :
    (∀ html, (pg.poll ⟨last, some s⟩ p).1 ≠ some (.page html)) ∧
      ∃ kept, (pg.poll ⟨last, some s⟩ p).2.store = some kept ∧
        Blocked pg coming name source kept := by
  cases hread : p.read with
  | error e =>
      rw [poll_of_unread hread]
      exact ⟨by simp, s, rfl, h⟩
  | ok read =>
      by_cases hlast : last = some read.digest
      · rw [poll_of_last (w := ⟨last, some s⟩) hread hlast]
        exact ⟨by simp, s, rfl, h⟩
      · obtain ⟨hname, hcoming⟩ := hp read hread
        obtain ⟨failure, s', hrender, hblocked⟩ := render_of_blocked h p.orders hname hcoming
        rw [poll_of_other (w := ⟨last, some s⟩) hread hlast, hrender]
        exact ⟨by simp [shown], s', rfl, hblocked⟩

/-- So do all polls. -/
theorem watch_of_blocked
    (h : Blocked pg coming name source s)
    (last : Option Bytes) {polls : List Poll}
    (hpolls : ∀ p ∈ polls, ∀ read, p.read = .ok read →
      name ∉ (pg.partialsOf read).map Prod.fst ∧
        ∀ n ∈ (pg.partialsOf read).map Prod.fst, coming n) :
    (∀ html, some (.page html) ∉ (pg.watch ⟨last, some s⟩ polls).1) ∧
      ∃ kept, (pg.watch ⟨last, some s⟩ polls).2.store = some kept ∧
        Blocked pg coming name source kept := by
  induction polls generalizing last s with
  | nil =>
      exact ⟨by simp [watch], s, rfl, h⟩
  | cons p rest ih =>
      obtain ⟨hfirst, hrest⟩ := List.forall_mem_cons.1 hpolls
      obtain ⟨hprinted, kept, hkept, hblocked⟩ := poll_of_blocked h last hfirst
      have hstate : (pg.poll ⟨last, some s⟩ p).2 =
          ⟨(pg.poll ⟨last, some s⟩ p).2.last, some kept⟩ := by
        rw [← hkept]
      obtain ⟨hnone, kept', hkept', hblocked'⟩ :=
        ih hblocked (pg.poll ⟨last, some s⟩ p).2.last hrest
      rw [← hstate] at hnone hkept'
      refine ⟨fun html hmem => ?_, kept', hkept', hblocked'⟩
      rcases List.mem_cons.1 hmem with hmem | hmem
      · exact hprinted html hmem.symm
      · exact hnone html hmem

/-- A loading that fails has one of the saved partials at fault. -/
theorem exists_of_loading_error
    {e : LoadError}
    (hs : s.Orderly)
    (h : pg.loading s = .error e) :
    ∃ name source d, e = .template d ∧ s.partials.lookup name = some source ∧
      pg.engine.compileAmong s.partials name source = .error d := by
  rcases pg.engine.loadPartials_cases (.ok s.partials) with
    ⟨failure, hfails, hfault⟩ | ⟨_, _, _, hloads, _⟩
  · cases h.symm.trans hfails
    cases hfault with
    | template htext hcompile =>
        rw [textOf_eq_lookup hs.partials.nodup] at htext
        exact ⟨_, _, _, rfl, htext, hcompile⟩
  · exact absurd (h.symm.trans hloads) (by simp)

/-- A text that fails among the saved partials fails also when others come, if it is hopeless or the
names that come are known. -/
theorem blocked_of_compileAmong
    {d : Diagnostic}
    (hs : s.Orderly)
    (hsaved : s.partials.lookup name = some source)
    (hfails : pg.engine.compileAmong s.partials name source = .error d)
    (h : pg.Hopeless name source ∨ ∀ n, coming n → n ∈ s.partials.map Prod.fst) :
    Blocked pg coming name source s where
  orderly := hs
  saved := hsaved
  fails := by
    intro names hall honly
    rcases h with hhopeless | hknown
    · exact hhopeless names
    · have hsame : names = fun n => (s.partials.map Prod.fst).contains n := by
        funext n
        rw [Bool.eq_iff_iff, List.contains_iff_mem]
        exact ⟨fun hn => (honly n hn).elim id (hknown n), hall n⟩
      exact ⟨d, hsame ▸ hfails⟩

/-- A saved partial at fault prevents every page of later polls that leave it alone. -/
theorem watch_of_compileAmong
    {d : Diagnostic}
    (hs : s.Orderly)
    (hsaved : s.partials.lookup name = some source)
    (hfails : pg.engine.compileAmong s.partials name source = .error d)
    (last : Option Bytes) {polls : List Poll}
    (hgone : ∀ p ∈ polls, ∀ read, p.read = .ok read → name ∉ (pg.partialsOf read).map Prod.fst)
    (hnames : pg.Hopeless name source ∨ ∀ p ∈ polls, ∀ read, p.read = .ok read →
      ∀ q ∈ pg.partialsOf read, q.1 ∈ s.partials.map Prod.fst) :
    (∀ html, some (.page html) ∉ (pg.watch ⟨last, some s⟩ polls).1) ∧
      ∃ kept, (pg.watch ⟨last, some s⟩ polls).2.store = some kept ∧
        kept.partials.lookup name = some source := by
  let coming (n : Bytes) : Prop :=
    ∃ p ∈ polls, ∃ read, p.read = .ok read ∧ n ∈ (pg.partialsOf read).map Prod.fst
  have hknown : pg.Hopeless name source ∨ ∀ n, coming n → n ∈ s.partials.map Prod.fst := by
    refine hnames.imp_right fun hnames n hn => ?_
    obtain ⟨p, hp, read, hread, hn⟩ := hn
    obtain ⟨q, hq, rfl⟩ := List.mem_map.1 hn
    exact hnames p hp read hread q hq
  obtain ⟨hnone, kept, hstore, hblocked⟩ :=
    watch_of_blocked (blocked_of_compileAmong hs hsaved hfails hknown) last
      fun p hp read hread => ⟨hgone p hp read hread, fun n hn => ⟨p, hp, read, hread, hn⟩⟩
  exact ⟨hnone, kept, hstore, hblocked.saved⟩

/-- Whether a rendering ended because partials did not load. -/
def failsToLoad : Except Failure Bytes → Bool
  | .error (.load _) => true
  | _ => false

theorem failsToLoad_iff
    {outcome : Except Failure Bytes} :
    failsToLoad outcome = true ↔ ∃ e, outcome = .error (.load e) := by
  constructor
  · intro h
    cases outcome with
    | ok html =>
        cases h
    | error failure =>
        cases failure with
        | load e =>
            exact ⟨e, rfl⟩
        | _ =>
            cases h
  · rintro ⟨e, rfl⟩
    rfl

theorem hopeless_of_read
    {source : Bytes} {fault : Fault}
    (h : Tree.read ⟨pg.engine.hasHelper, pg.engine.keepWhitespace⟩ source = .error fault)
    (name : Bytes) :
    pg.Hopeless name source := by
  intro names
  refine ⟨⟨name, source, fault⟩, ?_⟩
  simp only [Engine.compileWith, compile, h]
  rfl

end Playground

open Playground in
/-- A rendering that fails keeps what it saved before, in whatever orders it goes through the files
and the partials.  When the partials do not load, all those of the snapshot are saved and no emitted
file is; when one is not emitted or the page does not compile, the files that were emitted before are
saved as well.  So the store is the one before only if all of this was saved already.  A partial that
is at fault in a loading then prevents every page of the later polls that read no file of its name,
as long as these bring no further names, or any names if the text is hopeless. -/
theorem failed_render_keeps_partials
    (pg : Playground) (o : Orders) (files : Snapshot) {s s' : Store} {failure : Failure}
    (hs : s.Orderly)
    (h : pg.render o files (some s) = (.error failure, some s')) :
    let partials := pg.partialsOf (o.gather.arrange files)
    Leaves pg files (o.save.arrange partials) (o.emit.arrange partials) s (.error failure) s' ∧
    s'.Orderly ∧
    (∀ e, failure = .load e →
      s'.programs = s.programs ∧ Saves partials s s' ∧
      (s' = s ↔ ∀ p ∈ partials, s.partials.lookup p.1 = some p.2) ∧
      ∃ name source d, e = .template d ∧ s'.partials.lookup name = some source ∧
        pg.engine.compileAmong s'.partials name source = .error d ∧
        ∀ (last : Option Bytes) (polls : List Poll),
          (∀ p ∈ polls, ∀ read, p.read = .ok read →
            name ∉ (pg.partialsOf read).map Prod.fst) →
          (pg.Hopeless name source ∨ ∀ p ∈ polls, ∀ read, p.read = .ok read →
            ∀ q ∈ pg.partialsOf read, q.1 ∈ s'.partials.map Prod.fst) →
          (∀ html, some (.page html) ∉ (pg.watch ⟨last, some s'⟩ polls).1) ∧
            ∃ kept, (pg.watch ⟨last, some s'⟩ polls).2.store = some kept ∧
              kept.partials.lookup name = some source) ∧
    (∀ e, failure = .build e →
      Saves partials s s' ∧
      ∃ codes : List (Bytes × Bytes),
        codes.map Prod.fst <+: (o.emit.arrange partials).map Prod.fst ∧
        (∀ name, s'.programs.lookup name = (codes.lookup name).or (s.programs.lookup name)) ∧
        (s' = s ↔ (∀ p ∈ partials, s.partials.lookup p.1 = some p.2) ∧
          ∀ c ∈ codes, s.programs.lookup c.1 = some c.2)) := by
  intro partials
  have hnodup : (partials.map Prod.fst).Nodup := pg.nodup_partialsOf _
  have hsaving := o.save.perm partials
  have hdistinct := nodup_arrange o.save hnodup
  obtain ⟨outcome, left, hrender, hleaves⟩ := pg.leaves_render o files s
  cases h.symm.trans hrender
  have hs' : s'.Orderly := by
    obtain ⟨saved, codes, rfl, _, hsaved, hcodes⟩ :=
      hleaves.exists_keep (o.perm_emit_save partials)
    exact hs.keep hsaved hcodes
  have hsaves : ∀ codes, Saves partials s (s.keep (o.save.arrange partials) codes) :=
    fun codes name => (Table.lookup_insertEach hdistinct s.partials name).trans
      (by rw [Fields.lookup_eq_of_perm hdistinct hsaving])
  refine ⟨hleaves, hs', fun e he => ?_, fun e he => ?_⟩
  · obtain ⟨hkept, hfails⟩ := hleaves.of_load (congrArg Except.error he)
    obtain ⟨name, source, d, rfl, hsaved, hcompile⟩ := exists_of_loading_error hs' hfails
    refine ⟨by rw [hkept]; rfl, ?_, ?_, name, source, d, rfl, hsaved, hcompile, ?_⟩
    · rw [hkept]
      exact hsaves []
    · rw [hkept, keep_eq_self_iff hs hdistinct (by simp)]
      simp only [hsaving.mem_iff, List.not_mem_nil, false_imp_iff, implies_true, and_true]
    · exact fun last polls => watch_of_compileAmong hs' hsaved hcompile last
  · obtain ⟨codes, hkept, hcodes⟩ := hleaves.of_build (congrArg Except.error he)
    have hemitted := hcodes.sublist.nodup (nodup_arrange o.emit hnodup)
    refine ⟨?_, codes, hcodes, ?_, ?_⟩
    · rw [hkept]
      exact hsaves codes
    · rw [hkept]
      exact Table.lookup_insertEach hemitted s.programs
    · rw [hkept, keep_eq_self_iff hs hdistinct hemitted]
      simp only [hsaving.mem_iff]

/-- A playground with a directory of partials. -/
def pagePlayground : Playground where
  template := utf8 "page.hbx"
  partials := utf8 "p"

/-- A page, beside a partial that breaks off. -/
def pageBesideBroken : Snapshot :=
  [(utf8 "p/bad.hbx", utf8 "\x7b\x7b#if"), (utf8 "page.hbx", utf8 "<p>x</p>")]

/-- The page after the partial was removed. -/
def pageAlone : Snapshot := [(utf8 "page.hbx", utf8 "<p>x</p>")]

/-- The page beside another partial. -/
def pageBesideGood : Snapshot :=
  [(utf8 "p/good.hbx", utf8 "y"), (utf8 "page.hbx", utf8 "<p>x</p>")]

theorem partialsOf_pageBesideBroken :
    pagePlayground.partialsOf pageBesideBroken = [(utf8 "bad", utf8 "\x7b\x7b#if")] := by
  decide +kernel

theorem hopeless_broken :
    pagePlayground.Hopeless (utf8 "bad") (utf8 "\x7b\x7b#if") := by
  have hfails : (Tree.read ⟨pagePlayground.engine.hasHelper, false⟩
      (utf8 "\x7b\x7b#if")).isOk = false := by
    decide +kernel
  obtain ⟨fault, hread⟩ := isOk_eq_false_iff.1 hfails
  exact Playground.hopeless_of_read hread _

/-- The store was empty, and the partial is in it from then on: no poll of the page prints it, alone
or beside another partial. -/
theorem failed_render_keeps_partials_pageBesideBroken :
    ({} : Store).Orderly ∧
      ∃ e s', pagePlayground.render {} pageBesideBroken (some {}) = (.error (.load e), some s') ∧
        s' ≠ {} ∧ ∀ last html, some (.page html) ∉
          (pagePlayground.watch ⟨last, some s'⟩ [⟨.ok pageAlone, {}⟩, ⟨.ok pageBesideGood, {}⟩]).1 := by
  have hempty : ({} : Store).Orderly := ⟨⟨List.Pairwise.nil, by simp⟩, ⟨List.Pairwise.nil, by simp⟩⟩
  have hload : Playground.failsToLoad (pagePlayground.render {} pageBesideBroken (some {})).1 =
      true := by
    decide +kernel
  obtain ⟨outcome, s', hrender, _⟩ := pagePlayground.leaves_render {} pageBesideBroken {}
  rw [hrender, Playground.failsToLoad_iff] at hload
  obtain ⟨e, rfl⟩ := hload
  obtain ⟨_, _, hloaded, _⟩ := failed_render_keeps_partials _ _ _ hempty hrender
  obtain ⟨_, hsaves, hsame, name, source, _, _, hsaved, _, hlater⟩ := hloaded e rfl
  have hpartials : pagePlayground.partialsOf
      (({} : Playground.Orders).gather.arrange pageBesideBroken) = _ := partialsOf_pageBesideBroken
  have hbroken : (name, source) = (utf8 "bad", utf8 "\x7b\x7b#if") := by
    rw [hsaves, hpartials, List.lookup_nil, Option.or_none,
      Fields.lookup_eq_some_iff_mem (by simp)] at hsaved
    exact List.mem_singleton.1 hsaved
  cases hbroken
  refine ⟨hempty, e, s', hrender, ?_, fun last html => ?_⟩
  · intro hs'
    cases hsame.1 hs' _ (hpartials ▸ List.mem_singleton.2 rfl)
  · refine (hlater last _ ?_ (Or.inl hopeless_broken)).1 html
    have hnames : utf8 "bad" ∉ (pagePlayground.partialsOf pageAlone).map Prod.fst ∧
        utf8 "bad" ∉ (pagePlayground.partialsOf pageBesideGood).map Prod.fst := by
      decide +kernel
    simp only [List.mem_cons, List.not_mem_nil, or_false]
    rintro p (rfl | rfl) read hread
    · exact Except.ok.inj hread ▸ hnames.1
    · exact Except.ok.inj hread ▸ hnames.2

/-- Without the partial in the store the page is rendered, and after the failure it is not. -/
theorem broken_partial_outlives_its_file :
    let broken := pagePlayground.render {} pageBesideBroken (some {})
    (∃ e, broken.1 = .error (.load e)) ∧
      broken.2.map Store.listing = some [(utf8 "bad", utf8 "\x7b\x7b#if", none)] ∧
      (∃ e, (pagePlayground.render {} pageAlone broken.2).1 = .error (.load e)) ∧
      (pagePlayground.render {} pageAlone (some {})).1.toOption = some (utf8 "<p>x</p>") := by
  simp only [← Playground.failsToLoad_iff]
  decide +kernel

end Stencil
