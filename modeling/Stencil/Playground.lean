import Stencil.Digest
import Stencil.Document
import Stencil.Engine
import Stencil.File.Pattern
import Stencil.Store

/-!
# The playground

The playground watches a template, its data and its partials, and renders the template whenever one
of them changes.

Input: at every poll, a snapshot of the watched files or the failure to read them.

Algorithm: a digest of the snapshot is compared with that of the last snapshot that was read.  With
a store, the partials are saved there before they are loaded from it, and so are the files that they
are emitted as.  The files of a snapshot and the partials are maps, which have no order of their own:
a rendering is given the orders in which it goes through them.
-/

namespace Stencil

/-- What is watched: a template, a data file and a directory of partials, where an empty name stands
for none; and how data is read and emitted files are laid out. -/
structure Playground where
  template : Bytes
  data : Bytes := []
  partials : Bytes := []
  reader : Bytes → Option Datum := Document.read
  format : Source.Formatter := Source.tidy

/-- The contents of files, each name once. -/
abbrev Snapshot := List (Bytes × Bytes)

namespace Snapshot

/-- What a digest is taken of: the files in the order of their names, each with its name, its length
and its content. -/
def encode (files : Snapshot) : Bytes :=
  (Datum.sorted files).flatMap fun f => f.1 ++ [0] ++ Bytes.decimal f.2.length ++ [0] ++ f.2

/-- The digest of a snapshot. -/
def digest (files : Snapshot) : Bytes := Digest.sha256 files.encode

end Snapshot

namespace Playground

/-- An order in which the entries of a map are gone through. -/
structure Order where
  arrange : List (Bytes × Bytes) → List (Bytes × Bytes)
  perm : ∀ entries, (arrange entries).Perm entries

namespace Order

/-- The order in which the entries are given. -/
def given : Order := ⟨id, List.Perm.refl⟩

/-- The order of the names. -/
def byName : Order := ⟨Datum.sorted, fun entries => List.mergeSort_perm entries _⟩

end Order

/-- The orders in which a rendering gathers the partials from the files, saves them, and emits
them. -/
structure Orders where
  gather : Order := .given
  save : Order := .byName
  emit : Order := .byName

/-- Why a snapshot cannot be taken. -/
inductive InputError where
  | file (e : FileError)
  | badPattern
deriving DecidableEq

/-- The text of a failure to take a snapshot. -/
def InputError.message : InputError → Bytes
  | file e => e.message
  | badPattern => utf8 "syntax error in pattern"

/-- Why the template is not rendered. -/
inductive Failure where
  | store (e : StoreError)
  | load (e : LoadError)
  | build (e : BuildError)
  | document (name : Bytes)
  | render (e : RenderError)
  | unwritable

/-- What a user is told about a failure. -/
def Failure.told : Failure → Report ⊕ Bytes
  | store e => .inr e.message
  | load (.template d) | build (.template d) => .inl d.report
  | load (.source m) => .inr (LoadError.message (.source m))
  | build (.emit e) => .inr e.message
  | document name => .inr (name ++ utf8 ": yaml: ")
  | render e => .inr e.message
  | unwritable => .inr []

/-- The names of the watched files. -/
def watched (pg : Playground) (cwd : Bytes) (t : FileTree) : Except InputError (List Bytes) :=
  let named := pg.template :: (if pg.data.isEmpty then [] else [pg.data])
  if pg.partials.isEmpty then .ok named
  else match Pattern.glob cwd t (FileName.join [pg.partials, utf8 "*.hbx"]) with
    | some found => .ok (named ++ found)
    | none => .error .badPattern

/-- A snapshot of the watched files. -/
def inputs (pg : Playground) (cwd : Bytes) (t : FileTree) : Except InputError Snapshot := do
  let names ← pg.watched cwd t
  let files ← names.mapM fun name => do
    return (name, ← (t.contentOf cwd name).mapError .file)
  return Fields.insertAll files []

/-- The partials in the files of a snapshot: all templates but the watched one, each under its base
name.  Of several files with one base name the last counts. -/
def partialsOf (pg : Playground) (files : List (Bytes × Bytes)) : List (Bytes × Bytes) :=
  let named := files.filterMap fun f =>
    if f.1 = pg.template then none
    else if Bytes.endsWith (utf8 ".hbx") f.1 then
      some ((Bytes.before? (utf8 ".hbx") (FileName.base f.1)).getD [], f.2)
    else none
  Fields.insertAll named []

/-- Partials saved one after the other, up to the first that is refused. -/
def savePartials (s : Store) : List (Bytes × Bytes) → Option StoreError × Store
  | [] => (none, s)
  | (name, source) :: rest =>
    match s.setPartial name source with
    | .ok s => savePartials s rest
    | .error e => (some e, s)

/-- The files that partials are emitted as saved one after the other, up to the first failure. -/
def savePrograms (e : Engine) (s : Store) : List (Bytes × Bytes) → Option Failure × Store
  | [] => (none, s)
  | (name, source) :: rest =>
    let title := if name.isEmpty then Engine.unnamed else name
    match e.emit source ⟨title, utf8 "partials", Identifier.ofFile name⟩ with
    | .error err => (some (.build err), s)
    | .ok code =>
      match s.setProgram name code with
      | .ok s => savePrograms e s rest
      | .error err => (some (.store err), s)

/-- The engine that a rendering starts from. -/
def engine (pg : Playground) : Engine := { format := pg.format }

/-- An engine with partials, by way of the store if there is one, and the store afterwards.  The
store is given the partials in two orders, one for each of its tables. -/
def prepare (pg : Playground) (saving emitting : List (Bytes × Bytes)) :
    Option Store → Except Failure Engine × Option Store
  | none =>
    match pg.engine.loadPartials (.ok saving) with
    | .ok e => (.ok e, none)
    | .error err => (.error (.load err), none)
  | some s =>
    match savePartials s saving with
    | (some err, s) => (.error (.store err), some s)
    | (none, s) =>
      match pg.engine.loadPartials (.ok s.partials) with
      | .error err => (.error (.load err), some s)
      | .ok e =>
        match savePrograms e s emitting with
        | (some err, s) => (.error err, some s)
        | (none, s) => (.ok e, some s)

/-- The data in a snapshot. -/
def dataOf (pg : Playground) (files : Snapshot) : Except Failure Datum :=
  if pg.data.isEmpty then .ok .null
  else match pg.reader ((files.lookup pg.data).getD []) with
    | some d => .ok d
    | none => .error (.document pg.data)

/-- The template of a snapshot rendered by an engine. -/
def page (pg : Playground) (files : Snapshot) (e : Engine) : Except Failure Bytes := do
  let data ← pg.dataOf files
  let p ← (e.compile pg.template ((files.lookup pg.template).getD [])).mapError fun d =>
    .build (.template d)
  let nodes ← (e.render p.ops data).mapError .render
  match Node.html nodes with
  | some html => .ok html
  | none => .error .unwritable

/-- The template of a snapshot rendered, and the store afterwards. -/
def render (pg : Playground) (o : Orders) (files : Snapshot) (store : Option Store) :
    Except Failure Bytes × Option Store :=
  let partials := pg.partialsOf (o.gather.arrange files)
  match pg.prepare (o.save.arrange partials) (o.emit.arrange partials) store with
  | (.ok e, store) => (pg.page files e, store)
  | (.error err, store) => (.error err, store)

/-- What the playground prints. -/
inductive Output where
  | page (text : Bytes)
  | errors (text : Bytes)
deriving DecidableEq

/-- The state between polls: the digest of the last snapshot, and the store. -/
structure Watch where
  last : Option Bytes := none
  store : Option Store := none

/-- One poll: what is read, or why nothing is, and the orders of a rendering. -/
structure Poll where
  read : Except InputError Snapshot
  orders : Orders := {}

/-- One poll: what is printed, if anything. -/
def poll (pg : Playground) (w : Watch) (p : Poll) : Option Output × Watch :=
  match p.read with
  | .error e => (some (.errors (utf8 "playground: read error: " ++ e.message ++ utf8 "\n")), w)
  | .ok files =>
    let digest := files.digest
    if w.last = some digest then (none, w)
    else
      let (result, store) := pg.render p.orders files w.store
      let output := match result with
        | .ok html => Output.page (html ++ utf8 "\n")
        | .error e => Output.errors (announce .plain e.told)
      (some output, ⟨some digest, store⟩)

/-- What is printed at each of some polls. -/
def watch (pg : Playground) (w : Watch) : List Poll → List (Option Output) × Watch
  | [] => ([], w)
  | p :: rest =>
    let (output, w) := pg.poll w p
    let (outputs, w) := watch pg w rest
    (output :: outputs, w)

end Playground
end Stencil
