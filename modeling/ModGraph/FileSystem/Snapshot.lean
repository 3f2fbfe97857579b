import ModGraph.FileSystem
import ModGraph.Json.Doc

/-!
# Snapshots

A file system can be written down as a JSON object: `files` holds the text of each file, `directories`
lists further directories, `links` holds the target of each symbolic link, and `workingDirectory` says
where relative paths start. Each of them may be left out.
-/

namespace ModGraph.FileSystem

open Json (Value)

/-- The texts that are members of an object, by name. -/
def snapshotTexts (v : Value) (name : String) : Option (List (String × String)) :=
  match v.get? name with
  | none => some []
  | some (.object members) => members.mapM fun
    | (k, .string s) => some (k, s)
    | _ => none
  | some _ => none

/-- The texts of a list. -/
def snapshotList (v : Value) (name : String) : Option (List String) :=
  match v.get? name with
  | none => some []
  | some (.array items) => items.mapM fun
    | .string s => some s
    | _ => none
  | some _ => none

/-- The file system of a snapshot. -/
def ofSnapshot? (v : Value) : Option FileSystem := do
  let files ← snapshotTexts v "files"
  let directories ← snapshotList v "directories"
  let links ← snapshotTexts v "links"
  let fs := files.foldl (fun fs (path, text) => fs.placeFile ⟨path⟩ text.toUTF8) empty
  let fs := directories.foldl (fun fs path => fs.placeDirectory ⟨path⟩) fs
  let fs := links.foldl (fun fs (path, target) => fs.placeLink ⟨path⟩ target) fs
  match v.get? "workingDirectory" with
  | none => some fs
  | some (.string path) => some (fs.enter ⟨path⟩)
  | some _ => none

/-- The file system that a text describes. -/
def ofText? (text : String) : Option FileSystem :=
  match Value.read text.toList with
  | .ok v => ofSnapshot? v
  | .error _ => none

end ModGraph.FileSystem
