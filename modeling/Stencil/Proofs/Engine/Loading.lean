import Stencil.Proofs.Engine.Session
import Stencil.Proofs.Sorted

/-!
# Loading partials together

A source of partials enumerates names with texts, or fails.  Loading gathers the texts under their
names, compiles them one by one in the order of the names, and then registers the programs one by
one.  Every step acts on the engine itself, and a step that fails leaves the engine as the steps
before it have made it.

All compiling comes before any registering, so a failure leaves the engine as it was, and otherwise
exactly the enumerated names are bound anew.  The texts are gathered under their names, where a later
text takes the place of an earlier one.  So the order in which names are enumerated is lost, but not
the order of several texts of one name: only the last one is compiled, and the others are not looked
at.

Results: `Loading.run_load` for the steps on the engine, `Engine.loadPartials_congr` for the order,
`loading_is_all_or_nothing` for both, and `order_of_texts_counts` for names with two texts.
-/

namespace Stencil

/-! ## Steps on an engine -/

/-- Steps on an engine, which keeps its state when a step fails. -/
abbrev Loading := ExceptT LoadError (StateM Engine)

namespace Loading

/-- Steps taken on an engine: what they give, and the engine afterwards. -/
def runOn {α : Type} (e : Engine) (steps : Loading α) : Except LoadError α × Engine :=
  StateT.run (ExceptT.run steps) e

/-- The enumerated texts under their names; a later text takes the place of an earlier one. -/
def gather : Except Bytes (List (Bytes × Bytes)) → Loading (List (Bytes × Bytes))
  | .error message => throw (.source message)
  | .ok listed => return Fields.insertAll listed []

/-- Compiles one text with the helpers and partials that the engine has now. -/
def compile (table : List (Bytes × Bytes)) (entry : Bytes × Bytes) :
    Loading (Bytes × List Op) := do
  let e ← get
  match e.compileWith (fun n => (table.lookup n).isSome) entry.1 entry.2 with
  | .ok p => return (entry.1, p.ops)
  | .error d => throw (.template d)

/-- Binds one name of the engine to a program. -/
def register (entry : Bytes × List Op) : Loading Unit :=
  modify fun e => { e with partials := Fields.insert entry.1 entry.2 e.partials }

/-- Loads the partials of a source. -/
def load (sources : Except Bytes (List (Bytes × Bytes))) : Loading Unit := do
  let table ← gather sources
  let compiled ← (Datum.sorted table).mapM (compile table)
  compiled.forM register
  modify fun e => { e with log := e.log ++ [.loaded compiled.length] }

section Steps

variable {α β : Type} {e e' : Engine}

theorem runOn_bind_of_ok
    {steps : Loading α} {a : α}
    (h : runOn e steps = (.ok a, e'))
    (more : α → Loading β) :
    runOn e (steps >>= more) = runOn e' (more a) := by
  have hrun : StateT.run (ExceptT.run steps) e = (.ok a, e') := h
  simp only [runOn, ExceptT.run_bind, StateT.run_bind, hrun]
  rfl

theorem runOn_bind_of_error
    {steps : Loading α} {failure : LoadError}
    (h : runOn e steps = (.error failure, e'))
    (more : α → Loading β) :
    runOn e (steps >>= more) = (.error failure, e') := by
  have hrun : StateT.run (ExceptT.run steps) e = (.error failure, e') := h
  simp only [runOn, ExceptT.run_bind, StateT.run_bind, hrun]
  rfl

end Steps

/-- The program of one text, or its failure. -/
def compiled (e : Engine) (table : List (Bytes × Bytes)) (entry : Bytes × Bytes) :
    Except Diagnostic (Bytes × List Op) := do
  let p ← e.compileWith (fun n => (table.lookup n).isSome) entry.1 entry.2
  return (entry.1, p.ops)

theorem compileAll_eq
    (e : Engine) (table : List (Bytes × Bytes)) :
    e.compileAll table = (Datum.sorted table).mapM (compiled e table) :=
  rfl

/-- Compiling one text leaves the engine as it is. -/
theorem runOn_compile
    (e : Engine) (table : List (Bytes × Bytes)) (entry : Bytes × Bytes) :
    runOn e (compile table entry) = ((compiled e table entry).mapError .template, e) := by
  have hget : runOn e (get : Loading Engine) = (.ok e, e) := rfl
  rw [compile, runOn_bind_of_ok hget, compiled]
  cases e.compileWith (fun n => (table.lookup n).isSome) entry.1 entry.2 with
  | error d =>
      rfl
  | ok p =>
      rfl

/-- So does compiling many. -/
theorem runOn_mapM_compile
    (e : Engine) (table entries : List (Bytes × Bytes)) :
    runOn e (entries.mapM (compile table)) =
      ((entries.mapM (compiled e table)).mapError .template, e) := by
  induction entries with
  | nil =>
      rfl
  | cons first rest ih =>
      rw [List.mapM_cons, List.mapM_cons]
      have hfirst := runOn_compile e table first
      cases h : compiled e table first with
      | error d =>
          rw [h] at hfirst
          exact runOn_bind_of_error hfirst _
      | ok entry =>
          rw [h] at hfirst
          rw [runOn_bind_of_ok hfirst]
          cases hrest : rest.mapM (compiled e table) with
          | error d =>
              rw [hrest] at ih
              exact runOn_bind_of_error ih _
          | ok entries =>
              rw [hrest] at ih
              rw [runOn_bind_of_ok ih]
              rfl

/-- Binding one name after the other binds all of them. -/
theorem runOn_forM_register
    (e : Engine) (entries : List (Bytes × List Op)) :
    runOn e (entries.forM register) =
      (.ok (), { e with partials := Fields.insertAll entries e.partials }) := by
  induction entries generalizing e with
  | nil =>
      rfl
  | cons first rest ih =>
      have hfirst : runOn e (register first) =
          (.ok (), { e with partials := Fields.insert first.1 first.2 e.partials }) := rfl
      exact (runOn_bind_of_ok hfirst fun _ => rest.forM register).trans (ih _)

/-- The engine after a loading that is given as a whole: unchanged when it fails. -/
def outcome (e : Engine) : Except LoadError Engine → Except LoadError Unit × Engine
  | .ok e' => (.ok (), e')
  | .error failure => (.error failure, e)

/-- The steps of a loading give what the loading gives as a whole. -/
theorem run_load
    (e : Engine) (sources : Except Bytes (List (Bytes × Bytes))) :
    runOn e (load sources) = outcome e (e.loadPartials sources) := by
  cases sources with
  | error message =>
      rfl
  | ok listed =>
      let table := Fields.insertAll listed []
      have hgather : runOn e (gather (.ok listed)) = (.ok table, e) := rfl
      have hcompile := runOn_mapM_compile e table (Datum.sorted table)
      rw [load, runOn_bind_of_ok hgather, Engine.loadPartials, ok_mapError, ok_bind, compileAll_eq]
      cases h : (Datum.sorted table).mapM (compiled e table) with
      | error d =>
          rw [h] at hcompile
          rw [runOn_bind_of_error hcompile]
          rfl
      | ok entries =>
          rw [h] at hcompile
          rw [runOn_bind_of_ok hcompile, runOn_bind_of_ok (runOn_forM_register e entries)]
          rfl

end Loading

/-! ## What is loaded -/

/-- The text of a name: of several that are enumerated the last one. -/
def textOf (listed : List (Bytes × Bytes)) (name : Bytes) : Option Bytes :=
  listed.reverse.lookup name

/-- A text compiled with every enumerated name and every partial of the engine accepted. -/
def Engine.compileAmong (e : Engine) (listed : List (Bytes × Bytes)) (name text : Bytes) :
    Except Diagnostic Program :=
  e.compileWith (fun n => (listed.map Prod.fst).contains n) name text

/-- What can be at fault in a loading: the enumeration, or one of the templates. -/
inductive Engine.LoadFault (e : Engine) :
    Except Bytes (List (Bytes × Bytes)) → LoadError → Prop where
  | enumeration (message : Bytes) : LoadFault e (.error message) (.source message)
  | template {listed : List (Bytes × Bytes)} {name text : Bytes} {d : Diagnostic} :
      textOf listed name = some text →
      e.compileAmong listed name text = .error d →
      LoadFault e (.ok listed) (.template d)

/-- An engine in which exactly the enumerated names are bound anew, each to the program of its
text. -/
structure Engine.Loaded (e : Engine) (listed : List (Bytes × Bytes)) (e' : Engine) : Prop where
  bound : ∀ name text, textOf listed name = some text →
    ∃ p, e.compileAmong listed name text = .ok p ∧ e'.partials.lookup name = some p.ops
  unchanged : ∀ name, name ∉ listed.map Prod.fst →
    e'.partials.lookup name = e.partials.lookup name
  kept : e' = { e with partials := e'.partials, log := e'.log }

section Texts

variable {listed listed' : List (Bytes × Bytes)}

theorem lookup_gathered
    (listed : List (Bytes × Bytes)) (name : Bytes) :
    (Fields.insertAll listed []).lookup name = textOf listed name := by
  rw [Fields.lookup_insertAll, List.lookup_nil, Option.or_none]
  rfl

theorem nodup_gathered
    (listed : List (Bytes × Bytes)) :
    ((Fields.insertAll listed []).map Prod.fst).Nodup := by
  apply Fields.nodup_insertAll
  exact List.nodup_nil

theorem mem_of_textOf
    {name text : Bytes}
    (h : textOf listed name = some text) :
    (name, text) ∈ listed := by
  obtain ⟨before, behind, hsplit, _⟩ := List.lookup_eq_some_iff.1 h
  exact List.mem_reverse.1 (by simp [hsplit])

/-- Where every name has one text, it is the one that is enumerated. -/
theorem textOf_eq_some_iff
    (hone : ∀ name text text', (name, text) ∈ listed → (name, text') ∈ listed → text = text')
    (name text : Bytes) :
    textOf listed name = some text ↔ (name, text) ∈ listed := by
  constructor
  · exact mem_of_textOf
  · intro hmem
    have hsome : (textOf listed name).isSome = true := by
      rw [← lookup_gathered, Fields.isSome_lookup_insertAll]
      exact Or.inl (List.mem_map.2 ⟨_, hmem, rfl⟩)
    obtain ⟨text', htext'⟩ := Option.isSome_iff_exists.1 hsome
    rw [htext', hone name text text' hmem (mem_of_textOf htext')]

/-- The names accepted are those enumerated. -/
theorem isSome_lookup_gathered
    (listed : List (Bytes × Bytes)) :
    (fun n => ((Fields.insertAll listed []).lookup n).isSome) =
      fun n => (listed.map Prod.fst).contains n := by
  funext n
  rw [Bool.eq_iff_iff, Fields.isSome_lookup_insertAll, List.contains_iff_mem]
  simp

end Texts

namespace Engine

variable {e : Engine} {listed : List (Bytes × Bytes)}

theorem compiled_gathered
    (e : Engine) (listed : List (Bytes × Bytes)) (entry : Bytes × Bytes) :
    Loading.compiled e (Fields.insertAll listed []) entry =
      (e.compileAmong listed entry.1 entry.2).map fun p => (entry.1, p.ops) := by
  rw [Loading.compiled, compileAmong, isSome_lookup_gathered]
  cases e.compileWith (fun n => (listed.map Prod.fst).contains n) entry.1 entry.2 <;> rfl

theorem mem_sorted_gathered
    {name text : Bytes} :
    (name, text) ∈ Datum.sorted (Fields.insertAll listed []) ↔ textOf listed name = some text := by
  rw [(Datum.sorted_perm _).mem_iff, ← Fields.lookup_eq_some_iff_mem (nodup_gathered listed),
    lookup_gathered]

/-- A failure to compile the gathered texts is that of one of them. -/
theorem loadFault_of_compileAll
    {d : Diagnostic}
    (h : e.compileAll (Fields.insertAll listed []) = .error d) :
    e.LoadFault (.ok listed) (.template d) := by
  rw [Loading.compileAll_eq] at h
  obtain ⟨⟨name, text⟩, hmem, hfails⟩ := error_of_mapM_eq_error h
  rw [compiled_gathered] at hfails
  cases hcompile : e.compileAmong listed name text with
  | error d' =>
      rw [hcompile] at hfails
      cases hfails
      exact .template (mem_sorted_gathered.1 hmem) hcompile
  | ok p =>
      rw [hcompile] at hfails
      cases hfails

/-- The programs of the gathered texts, by name. -/
theorem mem_compileAll_gathered
    {programs : List (Bytes × List Op)}
    (h : e.compileAll (Fields.insertAll listed []) = .ok programs)
    (name : Bytes) (ops : List Op) :
    (name, ops) ∈ programs ↔ ∃ text p,
      textOf listed name = some text ∧ e.compileAmong listed name text = .ok p ∧ ops = p.ops := by
  rw [Loading.compileAll_eq] at h
  rw [mem_mapM_iff h]
  constructor
  · rintro ⟨⟨name, text⟩, hentry, hcompiled⟩
    rw [compiled_gathered, map_eq_ok_iff] at hcompiled
    obtain ⟨p, hp, hpair⟩ := hcompiled
    cases hpair
    exact ⟨text, p, mem_sorted_gathered.1 hentry, hp, rfl⟩
  · rintro ⟨text, p, htext, hp, rfl⟩
    refine ⟨(name, text), mem_sorted_gathered.2 htext, ?_⟩
    rw [compiled_gathered, map_eq_ok_iff]
    exact ⟨p, hp, rfl⟩

theorem map_fst_compileAll
    {programs : List (Bytes × List Op)} {table : List (Bytes × Bytes)}
    (h : e.compileAll table = .ok programs) :
    programs.map Prod.fst = (Datum.sorted table).map Prod.fst := by
  rw [Loading.compileAll_eq] at h
  refine map_eq_of_mapM (fun entry program hprogram => ?_) h
  rw [Loading.compiled, bind_eq_ok_iff] at hprogram
  obtain ⟨p, _, hpair⟩ := hprogram
  cases hpair
  rfl

/-- The programs of the gathered texts are bound to the enumerated names, and to no others. -/
theorem loaded_of_compileAll
    {programs : List (Bytes × List Op)}
    (h : e.compileAll (Fields.insertAll listed []) = .ok programs)
    (log : List Notice) :
    e.Loaded listed { e with partials := Fields.insertAll programs e.partials, log } where
  bound := by
    intro name text htext
    have hdistinct : (programs.reverse.map Prod.fst).Nodup := by
      rw [List.map_reverse, List.nodup_reverse, map_fst_compileAll h]
      exact ((Datum.sorted_perm _).map Prod.fst).nodup_iff.2 (nodup_gathered listed)
    obtain ⟨entry, hentry⟩ := ok_of_mem_mapM h (mem_sorted_gathered.2 htext)
    simp only [bind_eq_ok_iff, isSome_lookup_gathered] at hentry
    obtain ⟨p, hp, _⟩ := hentry
    have hmem := (mem_compileAll_gathered h name p.ops).2 ⟨text, p, htext, hp, rfl⟩
    have hlookup := (Fields.lookup_eq_some_iff_mem hdistinct).2 (List.mem_reverse.2 hmem)
    refine ⟨p, hp, ?_⟩
    rw [Fields.lookup_insertAll, hlookup, Option.some_or]
  unchanged := by
    intro name hname
    have hnone : programs.reverse.lookup name = none := by
      refine List.lookup_eq_none_iff.2 fun entry hentry => bne_iff_ne.2 ?_
      rintro rfl
      obtain ⟨text, _, htext, _⟩ :=
        (mem_compileAll_gathered h entry.1 entry.2).1 (List.mem_reverse.1 hentry)
      exact hname (List.mem_map.2 ⟨_, mem_of_textOf htext, rfl⟩)
    rw [Fields.lookup_insertAll, hnone, Option.none_or]
  kept := rfl

/-- A loading fails for something at fault, or binds exactly the enumerated names. -/
theorem loadPartials_cases
    (e : Engine) (sources : Except Bytes (List (Bytes × Bytes))) :
    (∃ failure, e.loadPartials sources = .error failure ∧ e.LoadFault sources failure) ∨
      ∃ listed e', sources = .ok listed ∧ e.loadPartials sources = .ok e' ∧ e.Loaded listed e' := by
  cases sources with
  | error message =>
      exact Or.inl ⟨.source message, rfl, .enumeration message⟩
  | ok listed =>
      rw [loadPartials, ok_mapError, ok_bind]
      cases h : e.compileAll (Fields.insertAll listed []) with
      | error d =>
          exact Or.inl ⟨.template d, rfl, loadFault_of_compileAll h⟩
      | ok programs =>
          exact Or.inr ⟨listed, _, rfl, rfl, loaded_of_compileAll h _⟩

/-- Nothing is at fault in what was loaded. -/
theorem Loaded.not_loadFault
    {e' : Engine} {failure : LoadError}
    (h : e.Loaded listed e') :
    ¬ e.LoadFault (.ok listed) failure := by
  rintro (_ | ⟨htext, hfails⟩)
  obtain ⟨p, hp, _⟩ := h.bound _ _ htext
  rw [hp] at hfails
  cases hfails

/-- A loading depends on the text of each name only. -/
theorem loadPartials_congr
    (e : Engine) {listed listed' : List (Bytes × Bytes)}
    (h : ∀ name, textOf listed name = textOf listed' name) :
    e.loadPartials (.ok listed) = e.loadPartials (.ok listed') := by
  have hlookup : ∀ name, (Fields.insertAll listed []).lookup name =
      (Fields.insertAll listed' []).lookup name := by
    intro name
    rw [lookup_gathered, lookup_gathered, h]
  have hsorted := Datum.sorted_eq_of_lookup (nodup_gathered listed) (nodup_gathered listed') hlookup
  have hall : e.compileAll (Fields.insertAll listed []) =
      e.compileAll (Fields.insertAll listed' []) := by
    simp only [compileAll, hsorted, hlookup]
  rw [loadPartials, loadPartials, ok_mapError, ok_mapError, ok_bind, ok_bind, hall]

end Engine

/-- Loading is all or nothing.  When the enumeration fails or one of the templates does not compile,
the loading fails for such a fault and the engine is the one before.  Otherwise exactly the
enumerated names are bound anew, to the programs of their texts compiled with all these names and
all partials from before accepted.  The text of a name is the last one that is enumerated for it, and
the outcome depends on these texts only: it is the same for two enumerations in which every name has
the same last text, and so for any two of the same pairs if no name has two texts. -/
theorem loading_is_all_or_nothing
    (e : Engine) :
    (∀ sources, (∃ failure, e.LoadFault sources failure) →
      ∃ failure, e.LoadFault sources failure ∧ e.loadPartials sources = .error failure ∧
        Loading.runOn e (Loading.load sources) = (.error failure, e)) ∧
    (∀ sources, (¬ ∃ failure, e.LoadFault sources failure) →
      ∃ listed e', sources = .ok listed ∧ e.loadPartials sources = .ok e' ∧
        Loading.runOn e (Loading.load sources) = (.ok (), e') ∧ e.Loaded listed e') ∧
    (∀ listed listed' : List (Bytes × Bytes),
      (∀ name, textOf listed name = textOf listed' name) →
      e.loadPartials (.ok listed) = e.loadPartials (.ok listed')) ∧
    (∀ listed listed' : List (Bytes × Bytes),
      (∀ name text text', (name, text) ∈ listed → (name, text') ∈ listed → text = text') →
      (∀ entry, entry ∈ listed ↔ entry ∈ listed') →
      e.loadPartials (.ok listed) = e.loadPartials (.ok listed')) := by
  refine ⟨?_, ?_, fun _ _ => e.loadPartials_congr, ?_⟩
  · rintro sources ⟨fault, hfault⟩
    rcases e.loadPartials_cases sources with
      ⟨failure, hfails, hfailure⟩ | ⟨listed, e', rfl, _, hloaded⟩
    · refine ⟨failure, hfailure, hfails, ?_⟩
      rw [Loading.run_load, hfails, Loading.outcome]
    · exact absurd hfault hloaded.not_loadFault
  · intro sources hnone
    rcases e.loadPartials_cases sources with
      ⟨failure, _, hfailure⟩ | ⟨listed, e', rfl, he', hloaded⟩
    · exact absurd ⟨failure, hfailure⟩ hnone
    · refine ⟨listed, e', rfl, he', ?_, hloaded⟩
      rw [Loading.run_load, he', Loading.outcome]
  · intro listed listed' hone hsame
    have hone' : ∀ name text text', (name, text) ∈ listed' → (name, text') ∈ listed' →
        text = text' := fun name text text' h h' =>
      hone name text text' ((hsame _).2 h) ((hsame _).2 h')
    refine e.loadPartials_congr fun name => Option.ext fun text => ?_
    rw [textOf_eq_some_iff hone, textOf_eq_some_iff hone', hsame]

/-- An engine with two partials, both empty. -/
def emptyRows : Engine := { partials := [(utf8 "row", []), (utf8 "foot", [])] }

/-- Two partials that call each other; one of them takes the place of an earlier one and calls
another. -/
def tableAndRow : List (Bytes × Bytes) :=
  [(utf8 "table", utf8 "<ul>\x7b\x7b> row\x7d\x7d</ul>"),
   (utf8 "row", utf8 "<li>\x7b\x7b> table\x7d\x7d\x7b\x7b> foot\x7d\x7d</li>")]

/-- The same, but for a block that is not closed. -/
def brokenTable : List (Bytes × Bytes) :=
  [(utf8 "row", utf8 "<li>\x7b\x7b> table\x7d\x7d\x7b\x7b> foot\x7d\x7d</li>"),
   (utf8 "table", utf8 "<ul>\x7b\x7b#if row\x7d\x7d</ul>")]

theorem not_loadFault_tableAndRow :
    ¬ ∃ failure, emptyRows.LoadFault (.ok tableAndRow) failure := by
  rintro ⟨failure, _ | ⟨htext, hfails⟩⟩
  have hcompiles : ∀ entry ∈ tableAndRow,
      (emptyRows.compileAmong tableAndRow entry.1 entry.2).isOk = true := by
    decide +kernel
  have hok := hcompiles _ (mem_of_textOf htext)
  rw [hfails] at hok
  cases hok

theorem loadFault_brokenTable :
    ∃ failure, emptyRows.LoadFault (.ok brokenTable) failure := by
  have hfails : (emptyRows.compileAmong brokenTable (utf8 "table")
      (utf8 "<ul>\x7b\x7b#if row\x7d\x7d</ul>")).isOk = false := by
    decide +kernel
  obtain ⟨d, hd⟩ := isOk_eq_false_iff.1 hfails
  exact ⟨.template d, .template (by decide) hd⟩

/-- Two partials that call each other are loaded, in either order; with one of them broken the
engine stays the same. -/
theorem loading_is_all_or_nothing_emptyRows :
    (∃ failure, emptyRows.loadPartials (.ok brokenTable) = .error failure ∧
      Loading.runOn emptyRows (Loading.load (.ok brokenTable)) = (.error failure, emptyRows)) ∧
    (∃ e', emptyRows.loadPartials (.ok tableAndRow) = .ok e' ∧
      emptyRows.Loaded tableAndRow e') ∧
    emptyRows.loadPartials (.ok tableAndRow) =
      emptyRows.loadPartials (.ok tableAndRow.reverse) := by
  obtain ⟨hnothing, hall, -, horder⟩ := loading_is_all_or_nothing emptyRows
  obtain ⟨failure, _, hfails, hsame⟩ := hnothing _ loadFault_brokenTable
  obtain ⟨listed, e', hlisted, he', _, hloaded⟩ := hall _ not_loadFault_tableAndRow
  cases hlisted
  refine ⟨⟨failure, hfails, hsame⟩, ⟨e', he', hloaded⟩, horder _ _ ?_ ?_⟩
  · intro name text text' h h'
    have hdistinct : (tableAndRow.map Prod.fst).Nodup := by decide
    rw [← Fields.lookup_eq_some_iff_mem hdistinct] at h h'
    exact Option.some.inj (h.symm.trans h')
  · intro entry
    exact List.mem_reverse.symm

/-- A name with two texts, the first of which breaks off. -/
def twoTexts : List (Bytes × Bytes) :=
  [(utf8 "row", utf8 "\x7b\x7b#if"), (utf8 "row", utf8 "<li>x</li>")]

/-- Of a name with two texts the last one counts: the same two pairs are loaded in one order, although
one of the texts does not compile, and fail in the other. -/
theorem order_of_texts_counts :
    twoTexts.Nodup ∧ twoTexts.Perm twoTexts.reverse ∧
      (∃ entry ∈ twoTexts,
        (emptyRows.compileAmong twoTexts entry.1 entry.2).isOk = false) ∧
      (emptyRows.loadPartials (.ok twoTexts)).isOk = true ∧
      (emptyRows.loadPartials (.ok twoTexts.reverse)).isOk = false := by
  refine ⟨by decide, (List.reverse_perm twoTexts).symm, ⟨_, List.mem_cons_self, ?_⟩, ?_, ?_⟩ <;>
    decide +kernel

end Stencil
