import Stencil.File.Name

/-!
# File trees

A file tree is a file or a directory of named file trees.  Names are resolved element by element:
an element is missing, or it stands behind a file, which has nothing inside.  There are no links:
a place has one name, and a file is written where its name leads.

Results: `FileTree.find` resolves a name, `FileTree.contentOf` and `FileTree.entriesOf` read what is
there, `FileTree.put` writes a file into a directory that exists.
-/

namespace Stencil

/-- A file, or a directory whose entries are in the order of their names. -/
inductive FileTree where
  | file (content : Bytes)
  | directory (entries : List (Bytes × FileTree))

instance : Inhabited FileTree := ⟨.directory []⟩

/-- What a file operation does. -/
inductive FileAction where
  | openFile
  | stat
  | lstat
  | read
deriving DecidableEq

/-- Why a file operation fails. -/
inductive FileCause where
  | missing
  | notDirectory
  | isDirectory
deriving DecidableEq

/-- A failed file operation and the name that it was given. -/
structure FileError where
  action : FileAction
  name : Bytes
  cause : FileCause
deriving DecidableEq

/-- The text of a failed file operation. -/
def FileError.message (e : FileError) : Bytes :=
  let action := match e.action with
    | .openFile => "open "
    | .stat => "stat "
    | .lstat => "lstat "
    | .read => "read "
  let cause := match e.cause with
    | .missing => ": no such file or directory"
    | .notDirectory => ": not a directory"
    | .isDirectory => ": is a directory"
  utf8 action ++ e.name ++ utf8 cause

namespace FileTree

/-- Whether a tree is a directory. -/
def isDirectory : FileTree → Bool
  | file _ => false
  | directory _ => true

/-- Resolves elements from a tree on, with the directories above it. -/
def descend (above : List FileTree) (here : FileTree) :
    (elements : List Bytes) → Except FileCause FileTree
  | [] => .ok here
  | e :: rest =>
    match here with
    | file _ => .error .notDirectory
    | directory entries =>
      if e.isEmpty ∨ e = FileName.here then descend above here rest
      else if e = FileName.above then
        match above with
        | [] => descend [] here rest
        | outer :: further => descend further outer rest
      else match entries.lookup e with
        | none => .error .missing
        | some t => descend (here :: above) t rest

/-- What a name stands for, as seen from a working directory. -/
def find (cwd name : Bytes) (t : FileTree) : Except FileCause FileTree :=
  if name.isEmpty then .error .missing
  else
    let place := if FileName.isAbsolute name then name else cwd ++ [Ascii.slash] ++ name
    descend [] t (Bytes.splitOn Ascii.slash place)

/-- What a name stands for, or the failure of an action on it. -/
def get (action : FileAction) (cwd name : Bytes) (t : FileTree) : Except FileError FileTree :=
  (t.find cwd name).mapError fun cause => ⟨action, name, cause⟩

/-- The content of a file. -/
def contentOf (cwd name : Bytes) (t : FileTree) : Except FileError Bytes := do
  match ← t.get .openFile cwd name with
  | file content => .ok content
  | directory _ => .error ⟨.read, name, .isDirectory⟩

/-- The entries of a directory. -/
def entriesOf (cwd name : Bytes) (t : FileTree) : Except FileError (List (Bytes × FileTree)) := do
  match ← t.get .openFile cwd name with
  | file _ => .error ⟨.openFile, name, .notDirectory⟩
  | directory entries => .ok entries

/-- An entry set in its place among entries in order. -/
def setEntry (name : Bytes) (t : FileTree) : List (Bytes × FileTree) → List (Bytes × FileTree)
  | [] => [(name, t)]
  | (n, u) :: rest =>
    if n = name then (name, t) :: rest
    else if Bytes.le name n then (name, t) :: (n, u) :: rest
    else (n, u) :: setEntry name t rest

/-- The tree with another one set at the place that elements lead to; directories on the way are
made. -/
def set : (t : FileTree) → (elements : List Bytes) → (inner : FileTree) → FileTree
  | _, [], inner => inner
  | directory entries, e :: rest, inner =>
    directory (setEntry e (set ((entries.lookup e).getD (directory [])) rest inner) entries)
  | file _, e :: rest, inner => directory [(e, set (directory []) rest inner)]

/-- The tree without what elements lead to. -/
def erase : (elements : List Bytes) → FileTree → FileTree
  | [], t => t
  | [e], directory entries => directory (entries.filter fun entry => entry.1 != e)
  | e :: rest, directory entries =>
    match entries.lookup e with
    | some t => directory (setEntry e (erase rest t) entries)
    | none => directory entries
  | _, file content => file content

/-- A file written to an absolute place, whose directory has to exist. -/
def put (name content : Bytes) (t : FileTree) : Except FileError FileTree := do
  let fail (cause : FileCause) : FileError := ⟨.openFile, name, cause⟩
  match t.find [] (FileName.dir name) with
  | .error cause => .error (fail cause)
  | .ok (file _) => .error (fail .notDirectory)
  | .ok (directory _) =>
    match t.find [] name with
    | .ok (directory _) => .error (fail .isDirectory)
    | _ => .ok (t.set (FileName.elements name) (file content))

mutual

/-- The files of a tree with their names below a given one. -/
def files (name : Bytes) : FileTree → List (Bytes × Bytes)
  | file content => [(name, content)]
  | directory entries => filesAll name entries

/-- The files of entries with their names below a given one. -/
def filesAll (name : Bytes) : List (Bytes × FileTree) → List (Bytes × Bytes)
  | [] => []
  | (n, t) :: rest => files (FileName.join [name, n]) t ++ filesAll name rest

end

end FileTree
end Stencil
