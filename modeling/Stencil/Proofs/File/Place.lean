import Stencil.File.Generated
import Stencil.Proofs.Checks
import Stencil.Proofs.File.Name

/-!
# What stands at a place

At a place of a file tree there is nothing, a file, or a directory with the files in it.  Of these
files only those with wanted names are looked at.

Writing a file into a directory changes what stands at its own place and nowhere else, provided that
its name is not a wanted one: not even the directories on the way look different.

Results: `FileTree.look_set` for writing, `FileTree.contentOf_eq_ok_iff` for reading, and
`FileTree.writeGenerated_ofElements` for what is written over and what is not.
-/

namespace Stencil
namespace FileTree

/-! ## Resolving -/

/-- What proper elements lead to. -/
def resolve : FileTree → List Bytes → Except FileCause FileTree
  | t, [] => .ok t
  | file _, _ :: _ => .error .notDirectory
  | directory entries, e :: rest =>
    match entries.lookup e with
    | none => .error .missing
    | some t => resolve t rest

theorem descend_eq_resolve
    {es : List Bytes}
    (hes : ∀ e ∈ es, FileName.Proper e)
    (above : List FileTree) (t : FileTree) :
    descend above t es = t.resolve es := by
  induction es generalizing above t with
  | nil =>
      rw [descend, resolve]
  | cons e rest ih =>
      obtain ⟨he, hrest⟩ := List.forall_mem_cons.1 hes
      cases t with
      | file content =>
          rfl
      | directory entries =>
          have hcounts : ¬ (e.isEmpty = true ∨ e = FileName.here) := by
            rintro (hempty | hhere)
            · exact he.notEmpty (List.isEmpty_iff.1 hempty)
            · exact he.notHere hhere
          rw [descend.eq_def, resolve]
          simp only [if_neg hcounts, if_neg he.notAbove]
          cases entries.lookup e with
          | none =>
              rfl
          | some u =>
              exact ih hrest _ u

/-- A place of a tree is found by its elements. -/
theorem find_ofElements
    {t : FileTree} {es : List Bytes}
    (hroot : t.isDirectory = true)
    (hes : ∀ e ∈ es, FileName.Proper e) :
    t.find [] (FileName.ofElements true es) = t.resolve es := by
  have hempty : (FileName.ofElements true es).isEmpty = false := rfl
  cases t with
  | file content =>
      cases hroot
  | directory entries =>
      rw [find, hempty, if_neg Bool.false_ne_true]
      simp only [FileName.isAbsolute_ofElements, if_true]
      have hstart : ∀ rest, descend [] (directory entries) ([] :: rest) =
          descend [] (directory entries) rest := by
        intro rest
        rw [descend.eq_def]
        simp only [List.isEmpty_nil, true_or, if_true]
      rw [FileName.splitOn_ofElements hes, hstart]
      by_cases h : es = []
      · subst h
        exact hstart []
      · rw [if_neg h]
        exact descend_eq_resolve hes [] _

theorem resolve_append
    (t : FileTree) (es es' : List Bytes) :
    t.resolve (es ++ es') = (do (← t.resolve es).resolve es') := by
  induction es generalizing t with
  | nil =>
      rfl
  | cons e rest ih =>
      cases t with
      | file content =>
          rfl
      | directory entries =>
          rw [List.cons_append, resolve, resolve]
          cases entries.lookup e with
          | none =>
              rfl
          | some u =>
              exact ih u

/-- What stands in a directory is one of its entries. -/
theorem resolve_concat
    {t : FileTree} {es : List Bytes} {entries : List (Bytes × FileTree)}
    (h : t.resolve es = .ok (.directory entries))
    (e : Bytes) :
    t.resolve (es ++ [e]) =
      match entries.lookup e with
      | none => .error .missing
      | some u => .ok u := by
  rw [resolve_append, h, ok_bind, resolve]
  cases entries.lookup e <;> rfl

/-- Whatever there is stands in a directory. -/
theorem directory_of_resolve_concat
    {t u : FileTree} {es : List Bytes} {e : Bytes}
    (h : t.resolve (es ++ [e]) = .ok u) :
    ∃ entries, t.resolve es = .ok (.directory entries) := by
  rw [resolve_append, bind_eq_ok_iff] at h
  obtain ⟨parent, hparent, hinner⟩ := h
  cases parent with
  | file content =>
      cases hinner
  | directory entries =>
      exact ⟨entries, hparent⟩

/-! ## Looking -/

/-- What stands at a place: of a directory, the names of the wanted files in it. -/
inductive Sight where
  | nothing
  | file (content : Bytes)
  | directory (names : List Bytes)
deriving DecidableEq

/-- The names of the wanted files among entries. -/
def wantedFiles (wanted : Bytes → Bool) (entries : List (Bytes × FileTree)) : List Bytes :=
  (entries.filter fun e => !e.2.isDirectory && wanted e.1).map Prod.fst

/-- What stands where elements lead to. -/
def look (wanted : Bytes → Bool) (t : FileTree) (es : List Bytes) : Sight :=
  match t.resolve es with
  | .ok (.file content) => .file content
  | .ok (.directory entries) => .directory (wantedFiles wanted entries)
  | .error _ => .nothing

section Look

variable {wanted : Bytes → Bool} {t : FileTree}

theorem look_eq_file_iff
    {es : List Bytes} {content : Bytes} :
    t.look wanted es = .file content ↔ t.resolve es = .ok (.file content) := by
  unfold look
  constructor
  · intro h
    split at h
    · next c heq =>
        cases h
        exact heq
    · cases h
    · cases h
  · intro h
    rw [h]

theorem look_eq_directory_iff
    {es names : List Bytes} :
    t.look wanted es = .directory names ↔ ∃ entries,
      t.resolve es = .ok (.directory entries) ∧ names = wantedFiles wanted entries := by
  unfold look
  constructor
  · intro h
    split at h
    · cases h
    · next entries heq =>
        cases h
        exact ⟨entries, heq, rfl⟩
    · cases h
  · rintro ⟨entries, hentries, rfl⟩
    rw [hentries]

/-- In a directory nothing stands where an entry is missing. -/
theorem look_eq_nothing_iff
    {es names : List Bytes} {e : Bytes}
    (hdir : t.look wanted es = .directory names) :
    t.look wanted (es ++ [e]) = .nothing ↔ t.resolve (es ++ [e]) = .error .missing := by
  obtain ⟨entries, hentries, _⟩ := look_eq_directory_iff.1 hdir
  unfold look
  rw [resolve_concat hentries]
  cases entries.lookup e with
  | none =>
      simp
  | some u =>
      cases u <;> simp

end Look

/-! ## Setting -/

section Set

variable {wanted : Bytes → Bool}

theorem lookup_setEntry_self
    (e : Bytes) (u : FileTree) (entries : List (Bytes × FileTree)) :
    (setEntry e u entries).lookup e = some u := by
  induction entries with
  | nil =>
      simp [setEntry]
  | cons first rest ih =>
      obtain ⟨n, v⟩ := first
      simp only [setEntry]
      split
      · simp
      · next hn =>
          split
          · simp
          · have hne : (e == n) = false := by simpa using Ne.symm hn
            simp [List.lookup_cons, hne, ih]

theorem lookup_setEntry_of_ne
    {e f : Bytes}
    (hf : f ≠ e)
    (u : FileTree) (entries : List (Bytes × FileTree)) :
    (setEntry e u entries).lookup f = entries.lookup f := by
  have hne : (f == e) = false := by simpa using hf
  induction entries with
  | nil =>
      simp [setEntry, List.lookup_cons, hne]
  | cons first rest ih =>
      obtain ⟨n, v⟩ := first
      simp only [setEntry]
      split
      · next hn =>
          subst hn
          simp [List.lookup_cons, hne]
      · split
        · simp [List.lookup_cons, hne]
        · simp [List.lookup_cons, ih]

/-- Setting an entry that is not listed, in place of one that is not listed, lists the same. -/
theorem wantedFiles_setEntry
    {e : Bytes} {u : FileTree} {entries : List (Bytes × FileTree)}
    (hnew : (!u.isDirectory && wanted e) = false)
    (hold : ∀ v, entries.lookup e = some v → (!v.isDirectory && wanted e) = false) :
    wantedFiles wanted (setEntry e u entries) = wantedFiles wanted entries := by
  unfold wantedFiles
  induction entries with
  | nil =>
      simp [setEntry, hnew]
  | cons first rest ih =>
      obtain ⟨n, v⟩ := first
      simp only [setEntry]
      split
      · next hn =>
          subst hn
          have hv := hold v (by simp)
          rw [List.filter_cons_of_neg (by simp [hnew]), List.filter_cons_of_neg (by simp [hv])]
      · next hn =>
          split
          · rw [List.filter_cons_of_neg (by simp [hnew])]
          · have hne : (e == n) = false := by simpa using Ne.symm hn
            have hrest := ih fun w hw => hold w (by simpa [List.lookup_cons, hne] using hw)
            simp only [List.filter_cons]
            split
            · rw [List.map_cons, List.map_cons, hrest]
            · exact hrest

theorem isDirectory_set
    (t : FileTree) {es : List Bytes}
    (hes : es ≠ [])
    (inner : FileTree) :
    (t.set es inner).isDirectory = true := by
  cases es with
  | nil =>
      exact absurd rfl hes
  | cons e rest =>
      cases t <;> rfl

/-- Looking into a directory goes on in the entry. -/
theorem look_directory_cons
    (entries : List (Bytes × FileTree)) (e : Bytes) (rest : List Bytes) :
    (directory entries).look wanted (e :: rest) =
      match entries.lookup e with
      | none => .nothing
      | some u => u.look wanted rest := by
  unfold look
  rw [resolve]
  cases entries.lookup e <;> rfl

theorem look_file_cons
    (content e : Bytes) (rest : List Bytes) :
    (file content).look wanted (e :: rest) = .nothing :=
  rfl

/-- A file set in a directory stands in it, and the directory looks as before. -/
theorem look_setEntry_file
    {entries : List (Bytes × FileTree)} {e : Bytes}
    (hfree : ∀ inside, (directory entries).look wanted [e] ≠ .directory inside)
    (he : wanted e = false)
    (content : Bytes) (place : List Bytes) :
    (directory (setEntry e (.file content) entries)).look wanted place =
      if place = [e] then .file content else (directory entries).look wanted place := by
  cases place with
  | nil =>
      have hlist : wantedFiles wanted (setEntry e (.file content) entries) =
          wantedFiles wanted entries :=
        wantedFiles_setEntry (by simp [he]) (by simp [he])
      rw [if_neg (List.cons_ne_nil e []).symm]
      exact congrArg Sight.directory hlist
  | cons f rest =>
      rw [look_directory_cons, look_directory_cons]
      by_cases hf : f = e
      · subst hf
        rw [lookup_setEntry_self]
        cases rest with
        | nil =>
            rw [if_pos rfl]
            rfl
        | cons g rest =>
            -- Nothing stands inside of a file, whether it is there already or not.
            rw [if_neg (by simp)]
            simp only [look_file_cons]
            rw [look_directory_cons] at hfree
            cases hold : entries.lookup f with
            | none =>
                rfl
            | some u =>
                cases u with
                | file old =>
                    rfl
                | directory inner =>
                    rw [hold] at hfree
                    exact absurd rfl (hfree (wantedFiles wanted inner))
      · rw [lookup_setEntry_of_ne hf, if_neg (by simp [hf])]

/-- An entry changed below a directory changes what stands below that entry. -/
theorem look_setEntry_directory
    {entries : List (Bytes × FileTree)} {e : Bytes} {u v : FileTree}
    (hold : entries.lookup e = some u)
    (hu : u.isDirectory = true)
    (hv : v.isDirectory = true)
    (place : List Bytes) :
    (directory (setEntry e v entries)).look wanted place =
      match place with
      | [] => (directory entries).look wanted []
      | f :: rest =>
        if f = e then v.look wanted rest else (directory entries).look wanted (f :: rest) := by
  cases place with
  | nil =>
      have hlist : wantedFiles wanted (setEntry e v entries) = wantedFiles wanted entries := by
        refine wantedFiles_setEntry (by simp [hv]) fun w hw => ?_
        rw [hold] at hw
        obtain rfl := Option.some.inj hw
        simp [hu]
      exact congrArg Sight.directory hlist
  | cons f rest =>
      by_cases hf : f = e
      · subst hf
        simp only [look_directory_cons, lookup_setEntry_self, if_true]
      · simp only [look_directory_cons, lookup_setEntry_of_ne hf, if_neg hf]

/-- A tree with a directory in it is a directory. -/
theorem exists_directory_of_look
    {t : FileTree} {es names : List Bytes}
    (h : t.look wanted es = .directory names) :
    ∃ entries, t = directory entries := by
  cases t with
  | file content =>
      cases es <;> cases h
  | directory entries =>
      exact ⟨entries, rfl⟩

/-- A file written into a directory stands at its place, and everything else looks as before. -/
theorem look_set
    {t : FileTree} {es names : List Bytes} {e : Bytes}
    (hdir : t.look wanted es = .directory names)
    (hfree : ∀ inside, t.look wanted (es ++ [e]) ≠ .directory inside)
    (he : wanted e = false)
    (content : Bytes) (place : List Bytes) :
    (t.set (es ++ [e]) (.file content)).look wanted place =
      if place = es ++ [e] then .file content else t.look wanted place := by
  induction es generalizing t place with
  | nil =>
      obtain ⟨entries, rfl⟩ := exists_directory_of_look hdir
      have hset : (directory entries).set ([] ++ [e]) (.file content) =
          directory (setEntry e (.file content) entries) := by
        simp [set]
      rw [hset]
      exact look_setEntry_file hfree he content place
  | cons f rest ih =>
      obtain ⟨entries, rfl⟩ := exists_directory_of_look hdir
      have hbelow : ∀ more, (directory entries).look wanted (f :: more) =
          match entries.lookup f with
          | none => .nothing
          | some u => u.look wanted more :=
        look_directory_cons entries f
      cases hold : entries.lookup f with
      | none =>
          rw [hbelow, hold] at hdir
          cases hdir
      | some u =>
          simp only [hold] at hbelow
          rw [List.cons_append, hbelow] at hfree
          rw [hbelow] at hdir
          obtain ⟨inner, rfl⟩ := exists_directory_of_look hdir
          have hset : (directory entries).set (f :: rest ++ [e]) (.file content) =
              directory (setEntry f ((directory inner).set (rest ++ [e]) (.file content))
                entries) := by
            simp [set, hold]
          rw [hset, look_setEntry_directory hold rfl (isDirectory_set _ (by simp) _)]
          cases place with
          | nil =>
              simp
          | cons g more =>
              by_cases hg : g = f
              · subst hg
                simp only [if_true, ih hdir hfree more, hbelow, List.cons_append,
                  List.cons.injEq, true_and]
              · simp [hg]

end Set

/-! ## Reading and writing -/

section Files

variable {wanted : Bytes → Bool} {t : FileTree} {es : List Bytes}

/-- The content of the file at a place. -/
theorem contentOf_eq_ok_iff
    (hroot : t.isDirectory = true)
    (hes : ∀ e ∈ es, FileName.Proper e)
    {content : Bytes} :
    t.contentOf [] (FileName.ofElements true es) = .ok content ↔
      t.look wanted es = .file content := by
  rw [look_eq_file_iff, contentOf, get, find_ofElements hroot hes]
  cases t.resolve es with
  | error cause =>
      simp [error_mapError, bind, Except.bind]
  | ok u =>
      cases u <;> simp [ok_mapError, bind, Except.bind]

theorem toOption_contentOf
    (hroot : t.isDirectory = true)
    (hes : ∀ e ∈ es, FileName.Proper e) :
    (t.contentOf [] (FileName.ofElements true es)).toOption =
      match t.look wanted es with
      | .file content => some content
      | _ => none := by
  rw [look, contentOf, get, find_ofElements hroot hes]
  cases t.resolve es with
  | error cause =>
      rfl
  | ok u =>
      cases u <;> rfl

/-- A directory cannot be read as a file. -/
theorem contentOf_directory
    (hroot : t.isDirectory = true)
    (hes : ∀ e ∈ es, FileName.Proper e)
    {names : List Bytes}
    (h : t.look wanted es = .directory names) :
    t.contentOf [] (FileName.ofElements true es) =
      .error ⟨.read, FileName.ofElements true es, .isDirectory⟩ := by
  obtain ⟨entries, hentries, _⟩ := look_eq_directory_iff.1 h
  rw [contentOf, get, find_ofElements hroot hes, hentries]
  rfl

/-- A file that is missing cannot be opened. -/
theorem contentOf_missing
    (hroot : t.isDirectory = true)
    (hes : ∀ e ∈ es, FileName.Proper e)
    (h : t.resolve es = .error .missing) :
    t.contentOf [] (FileName.ofElements true es) =
      .error ⟨.openFile, FileName.ofElements true es, .missing⟩ := by
  rw [contentOf, get, find_ofElements hroot hes, h]
  rfl

/-- A file is put into a directory unless a directory of its name is there. -/
theorem put_ofElements
    (hroot : t.isDirectory = true)
    {e : Bytes} {names : List Bytes}
    (hes : ∀ f ∈ es ++ [e], FileName.Proper f)
    (hdir : t.look wanted es = .directory names)
    (hfree : ∀ inside, t.look wanted (es ++ [e]) ≠ .directory inside)
    (content : Bytes) :
    t.put (FileName.ofElements true (es ++ [e])) content =
      .ok (t.set (es ++ [e]) (.file content)) := by
  obtain ⟨hfront, he⟩ := List.forall_mem_append.1 hes
  obtain ⟨entries, hentries, _⟩ := look_eq_directory_iff.1 hdir
  have hplace : ∀ inner, t.resolve (es ++ [e]) ≠ .ok (.directory inner) := by
    intro inner hinner
    exact hfree _ (look_eq_directory_iff.2 ⟨inner, hinner, rfl⟩)
  rw [put, FileName.dir_ofElements hfront (he e (List.mem_singleton.2 rfl)),
    find_ofElements hroot hfront, find_ofElements hroot hes, hentries,
    FileName.elements_ofElements hes]
  cases h : t.resolve (es ++ [e]) with
  | error cause =>
      rfl
  | ok u =>
      cases u with
      | file old =>
          rfl
      | directory inner =>
          exact absurd h (hplace inner)

/-- What becomes of a generated file: it is written where nothing stands and over a generated file,
left alone where it stands already, and refused otherwise. -/
theorem writeGenerated_ofElements
    (hroot : t.isDirectory = true)
    {e : Bytes} {names : List Bytes}
    (hes : ∀ f ∈ es ++ [e], FileName.Proper f)
    (hdir : t.look wanted es = .directory names)
    (content : Bytes) :
    writeGenerated (FileName.ofElements true (es ++ [e])) content t =
      match t.look wanted (es ++ [e]) with
      | .nothing => .ok (true, t.set (es ++ [e]) (.file content))
      | .directory _ =>
        .error (.file ⟨.read, FileName.ofElements true (es ++ [e]), .isDirectory⟩)
      | .file old =>
        if old = content then .ok (false, t)
        else if Generated.isGenerated old then .ok (true, t.set (es ++ [e]) (.file content))
        else .error (.notGenerated (FileName.ofElements true (es ++ [e]))) := by
  cases hlook : t.look wanted (es ++ [e]) with
  | nothing =>
      have hput := put_ofElements hroot hes hdir (by simp [hlook]) content
      have hmissing := contentOf_missing hroot hes ((look_eq_nothing_iff hdir).1 hlook)
      simp only [writeGenerated, hmissing, if_true, hput]
  | directory inside =>
      simp only [writeGenerated, contentOf_directory hroot hes hlook, reduceCtorEq, if_false]
  | file old =>
      have hput := put_ofElements hroot hes hdir (by simp [hlook]) content
      simp only [writeGenerated, (contentOf_eq_ok_iff hroot hes).2 hlook, hput]

end Files

end FileTree
end Stencil
