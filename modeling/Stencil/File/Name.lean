import Stencil.Bytes

/-!
# File names

File names with slashes between their elements, and the shortest name that denotes the same place.

Algorithm: `clean` goes through the elements.  Empty elements and `.` are dropped, and `..` takes
back the element before it if there is one that is not `..` itself.
-/

namespace Stencil
namespace FileName

/-- Whether a name starts at the root. -/
def isAbsolute (name : Bytes) : Bool := name.head? = some Ascii.slash

/-- The element that names the directory itself. -/
def here : Bytes := utf8 "."

/-- The element that names the directory above. -/
def above : Bytes := utf8 ".."

/-- One element added to cleaned elements, which are kept last first. -/
def step (absolute : Bool) (done : List Bytes) (element : Bytes) : List Bytes :=
  if element.isEmpty ∨ element = here then done
  else if element = above then
    match done with
    | [] => if absolute then [] else [above]
    | last :: rest => if last = above then above :: done else rest
  else element :: done

/-- The elements of a name that count. -/
def elements (name : Bytes) : List Bytes :=
  ((Bytes.splitOn Ascii.slash name).foldl (step (isAbsolute name)) []).reverse

/-- A name with given elements. -/
def ofElements (absolute : Bool) (es : List Bytes) : Bytes :=
  if absolute then Ascii.slash :: Bytes.join [Ascii.slash] es
  else if es.isEmpty then here else Bytes.join [Ascii.slash] es

/-- The shortest name for the same place. -/
def clean (name : Bytes) : Bytes := ofElements (isAbsolute name) (elements name)

/-- Names one inside the other; empty names do not count. -/
def join (names : List Bytes) : Bytes :=
  let parts := names.filter fun s => !s.isEmpty
  if parts.isEmpty then [] else clean (Bytes.join [Ascii.slash] parts)

/-- The last element of a name. -/
def base (name : Bytes) : Bytes :=
  let trimmed := (name.reverse.dropWhile (· == Ascii.slash)).reverse
  if name.isEmpty then here
  else if trimmed.isEmpty then [Ascii.slash]
  else (trimmed.reverse.takeWhile (· != Ascii.slash)).reverse

/-- The directory that a name lies in. -/
def dir (name : Bytes) : Bytes := clean (name.reverse.dropWhile (· != Ascii.slash)).reverse

/-- An absolute directory and those above it, from the innermost to the root. -/
def upwards (name : Bytes) : List Bytes :=
  let es := elements name
  (List.range (es.length + 1)).reverse.map fun n => ofElements true (es.take n)

/-- The elements behind the common front of two lists. -/
def apart : List Bytes → List Bytes → List Bytes × List Bytes
  | a :: as, b :: bs => if a = b then apart as bs else (a :: as, b :: bs)
  | as, bs => (as, bs)

/-- The name of an absolute place as seen from an absolute directory. -/
def relative (directory place : Bytes) : Bytes :=
  let (climb, descend) := apart (elements directory) (elements place)
  ofElements false (climb.map (fun _ => above) ++ descend)

/-- A name as seen from a working directory, in absolute form. -/
def absolute (cwd name : Bytes) : Bytes :=
  if isAbsolute name then clean name else join [cwd, name]

end FileName
end Stencil
