import Stencil.Command.Run

/-!
# The command line

Reads the part of the file system that the command can see into a file tree, runs the command on it,
and writes the files that are new or changed.
-/

namespace Stencil
namespace CommandLine

/-- The name of a place as the file system takes it; bytes that are not UTF-8 name no place. -/
def nameOf (place : Bytes) : IO String :=
  match String.fromUTF8? ⟨place.toArray⟩ with
  | some name => return name
  | none => throw (IO.userError ("file name is not UTF-8: " ++ String.ofList (shownChars place)))

/-- What stands at a place: a file, or a directory with what is in it down to some depth. -/
def load : (depth : Nat) → (place : String) → IO (Option FileTree)
  | depth, place => do
    let here := (← IO.currentDir) / place
    if ← here.isDir then
      match depth with
      | 0 => return some (.directory [])
      | depth + 1 =>
        let mut entries : List (Bytes × FileTree) := []
        for e in ← here.readDir do
          if let some t ← load depth (place ++ "/" ++ e.fileName) then
            entries := FileTree.setEntry (utf8 e.fileName) t entries
        return some (.directory entries)
    else if ← here.pathExists then
      return some (.file (← IO.FS.readBinFile place).data.toList)
    else return none

/-- A tree with what stands at an absolute place down to some depth, and with the directories above
it. -/
def add (depth : Nat) (t : FileTree) (place : Bytes) : IO FileTree := do
  let mut t := t
  for above in (FileName.upwards place).reverse do
    if let .error .missing := t.find [] above then
      if let some found ← load 0 (← nameOf above) then
        t := t.set (FileName.elements above) found
  if let some found ← load depth (← nameOf place) then
    t := t.set (FileName.elements place) found
  return t

/-- The places that the command looks at: those whose entries it reads, and those that it walks. -/
structure Places where
  listed : List Bytes := []
  walked : List Bytes := []

/-- The places that a pattern makes the command look at. -/
def Places.ofPattern (cwd pattern : Bytes) : Places :=
  let pattern := Text.trim pattern
  match Command.walkRoot? pattern with
  | some base => { walked := [FileName.absolute cwd base] }
  | none =>
    let place := FileName.absolute cwd pattern
    { listed := [FileName.dir place, place] }

/-- The places that arguments make the command look at. -/
def Places.ofArguments (cwd : Bytes) (arguments : List Bytes) : Places :=
  match Command.Flags.read {} arguments with
  | .error _ => {}
  | .ok flags =>
    let patterns := if flags.patterns.isEmpty then [utf8 "./..."] else flags.patterns
    let directory := Text.trim flags.dir
    if directory.isEmpty then
      let all := patterns.map (Places.ofPattern cwd)
      ⟨all.flatMap (·.listed), all.flatMap (·.walked)⟩
    else { listed := [FileName.absolute cwd directory] }

/-- The depth that no directory reaches. -/
def unlimited : Nat := 4096

/-- The tree that the command sees; the module files above the working directory are part of it. -/
def visible (cwd : Bytes) (arguments : List Bytes) : IO FileTree := do
  let places := Places.ofArguments cwd arguments
  let mut t : FileTree := .directory []
  for place in places.listed.mergeSort Bytes.le do
    t ← add 1 t place
  for place in places.walked.mergeSort Bytes.le do
    t ← add unlimited t place
  for above in FileName.upwards cwd do
    let file := FileName.join [above, utf8 "go.mod"]
    if let some found ← load 0 (← nameOf file) then
      t := t.set (FileName.elements file) found
  return t

end CommandLine
end Stencil

open Stencil in
/-- The command. -/
def main (arguments : List String) : IO UInt32 := do
  let arguments := arguments.map utf8
  let cwd := utf8 (← IO.currentDir).toString
  let errors ← IO.getStderr
  let style := if ← errors.isTty then Style.colored else Style.plain
  let before ← CommandLine.visible cwd arguments
  let out := Command.run style arguments cwd before
  let old := before.files (utf8 "/")
  for (name, content) in out.tree.files (utf8 "/") do
    if !old.contains (name, content) then
      IO.FS.writeBinFile (← CommandLine.nameOf name) ⟨content.toArray⟩
  errors.write ⟨out.errors.toArray⟩
  return out.exitCode.toUInt32
