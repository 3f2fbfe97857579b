import Mathlib.Data.List.Basic
import ModGraph.Proofs.Ways

/-!
# Candidates

Resolution searches folder after folder, each for a file, a file with an extension and a directory. What it finds is the
first file in one list (`Query.candidates`), whatever the tree (`resolve_eq_firstFile?`).

The list does not ask whether a path is a directory before it names what lies below: if a file lies below a path, then
the path leads to a directory (`isDirectory_of_find_below`). The empty path is the one exception, as it leads nowhere
but does not keep what is joined to it from being looked up in the working directory.
-/

namespace ModGraph

/-! ## Below a path -/

namespace FileSystem

variable {fs : FileSystem} {dir : Path} {name suffix : String} {found : Location × Node}

theorem find_empty (hdir : dir.text = "") : fs.find dir = .error .missing := by
  rw [find, locate, checkedText, hdir]
  rfl

theorem names_append_ne_nil (hname : (Path.Component.name name).IsStep) (suffix : String) :
    names (name ++ suffix) ≠ [] := by
  obtain ⟨hslash, hne, -, -⟩ := Path.isStep_name.mp hname
  obtain ⟨c, letters, hletters⟩ := List.exists_cons_of_ne_nil (l := name.toList) (by simpa using hne)
  apply names_ne_nil_of_mem (c := c)
  · simp [hletters]
  · rintro rfl
    exact hslash (by simp [hletters])

/-- The names of a directory come first in the spelling of what lies below. -/
theorem names_below (hname : (Path.Component.name name).IsStep) (suffix : String) :
    names ((dir.join ⟨name⟩).append suffix).text = names dir.text ++ names (name ++ suffix) := by
  have hnone : names (String.ofList []) = [] := rfl
  have hspelled : ∀ cs, (dir.join ⟨name⟩).text = String.ofList (cs ++ '/' :: name.toList) →
      ((dir.join ⟨name⟩).append suffix).text = String.ofList (cs ++ '/' :: (name ++ suffix).toList) := by
    intro cs hjoin
    rw [Path.append, hjoin, ← String.toList_inj]
    simp
  obtain ⟨hdir, hjoin⟩ | ⟨cs, hjoin, ⟨-, hdir⟩ | hdir⟩ := text_join dir hname
  · rw [Path.append, hjoin, hdir]
    rfl
  · rw [hspelled cs hjoin, names_append, String.ofList_toList, hdir]
  · rw [hspelled cs hjoin, names_append, String.ofList_toList, hdir, names_append, hnone, List.append_nil]

/-- The spelling of what lies below begins with the path. -/
theorem below_eq_append (hdir : dir.text ≠ "") (hname : (Path.Component.name name).IsStep) (suffix : String) :
    ∃ rest, (dir.join ⟨name⟩).append suffix = dir.append rest := by
  obtain ⟨hempty, -⟩ | ⟨cs, hjoin, ⟨-, hcs⟩ | hcs⟩ := text_join dir hname
  · exact absurd hempty hdir
  · refine ⟨"/" ++ name ++ suffix, congrArg Path.mk ?_⟩
    rw [hjoin, hcs, ← String.toList_inj]
    simp
  · refine ⟨name ++ suffix, congrArg Path.mk ?_⟩
    rw [hjoin, hcs, ← String.toList_inj]
    simp

/-- A longer text starts where a shorter one does. -/
theorem start_append (base : Location) {text : String} (htext : text ≠ "") (rest : String) :
    start base (text ++ rest) = start base text := by
  obtain ⟨c, letters, hletters⟩ := List.exists_cons_of_ne_nil (l := text.toList) (by simpa using htext)
  simp [start, hletters]

theorem checkedText_of_append {p : Path} (hp : p.text ≠ "")
    (h : checkedText (p.append suffix) = .ok (p.append suffix).text) : checkedText p = .ok p.text := by
  obtain ⟨hzero, -, hlength⟩ := checkedText_eq_ok_iff.mp h
  refine checkedText_eq_ok_iff.mpr ⟨fun hmem => hzero ?_, hp, ?_⟩
  · simp [Path.append, hmem]
  · rw [Path.append, String.utf8ByteSize_append] at hlength
    omega

/-- A look-up of what lies below a path goes to the path first, and there it must find a directory. -/
theorem isDirectory_of_find_below (hdir : dir.text ≠ "") (hname : (Path.Component.name name).IsStep)
    (h : fs.find ((dir.join ⟨name⟩).append suffix) = .ok found) : fs.isDirectory dir = true := by
  obtain ⟨loc, node⟩ := found
  obtain ⟨htext, -, left, hway⟩ := find_eq_ok_iff.mp h
  obtain ⟨last, hsteps, -⟩ := steps_eq ((dir.join ⟨name⟩).append suffix).text
  obtain ⟨rest, hrest⟩ := below_eq_append hdir hname suffix
  rw [hsteps, names_below hname, List.append_assoc, hrest, Path.append, start_append _ hdir] at hway
  obtain ⟨left', mid, hfront, hback⟩ := hway.split rfl
  have hmid := hback.directory (List.append_ne_nil_of_left_ne_nil (names_append_ne_nil hname _) _)
  rw [hrest] at htext
  apply isDirectory_of_find
  apply find_eq_ok_iff.mpr
  refine ⟨checkedText_of_append hdir htext, isDirectoryAt_iff.mp hmid, left', ?_⟩
  -- a slash at the end of the path asks for a directory, which is there
  obtain ⟨last, hsteps, rfl | rfl⟩ := steps_eq dir.text
  · rwa [hsteps, List.append_nil]
  · rw [hsteps]
    exact hfront.append (.here hmid rfl .done)

end FileSystem

/-! ## The list of candidates -/

namespace Resolver

variable {fs : FileSystem} {r : Resolver} {q : Query} {extensions : List String} {dir path : Path}

/-- The paths that a package's main file is looked for under. -/
def mainCandidates (extensions : List String) (dir : Path) (main : String) : List Path :=
  let path := dir.join ⟨main⟩
  path :: withExtensions path extensions ++ withExtensions (path.join index) extensions

/-- The paths that a directory may stand for: its main file's, if it names one, and its index files. -/
def directoryCandidates (fs : FileSystem) (extensions : List String) (dir : Path) : List Path :=
  ((Manifest.main? fs dir).map (mainCandidates extensions dir)).getD [] ++ withExtensions (dir.join index) extensions

/-- The paths that a path may stand for: itself, it with an extension, and what lies below it. -/
def candidatesAt (fs : FileSystem) (extensions : List String) (path : Path) : List Path :=
  path :: withExtensions path extensions ++ directoryCandidates fs extensions path

/-- The paths that a query may stand for, in order. Nothing lies below the empty path. -/
def candidates (r : Resolver) (fs : FileSystem) (q : Query) : List Path :=
  (q.starts fs).flatMap fun path =>
    if path.text = "" then path :: withExtensions path (r.extensionsFor q.format)
    else candidatesAt fs (r.extensionsFor q.format) path

theorem firstFile?_append (front back : List Path) :
    firstFile? fs (front ++ back) = (firstFile? fs front).or (firstFile? fs back) := List.find?_append

theorem resolveDirectory_eq :
    resolveDirectory fs extensions dir = firstFile? fs (directoryCandidates fs extensions dir) := by
  unfold resolveDirectory directoryCandidates
  rw [firstFile?_append]
  cases Manifest.main? fs dir <;> rfl

theorem isStep_fileName : (Path.Component.name Manifest.fileName).IsStep := Path.isStep_name.mpr (by decide)

theorem isStep_index : (Path.Component.name "index").IsStep := Path.isStep_name.mpr (by decide)

/-- A directory that names a main file is one. -/
theorem isDirectory_of_main {main : String} (hdir : dir.text ≠ "") (h : Manifest.main? fs dir = some main) :
    fs.isDirectory dir = true := by
  unfold Manifest.main? at h
  split at h
  · cases h
  next text htext =>
  obtain ⟨loc, content, hfind, -⟩ := FileSystem.readText_eq_ok htext
  have hpath : (dir.join ⟨Manifest.fileName⟩).append "" = Manifest.pathIn dir := by simp [Path.append, Manifest.pathIn]
  exact FileSystem.isDirectory_of_find_below hdir isStep_fileName (hpath ▸ hfind)

/-- Where there is no directory, no file lies below. -/
theorem firstFile?_directoryCandidates (hpath : path.text ≠ "") (hdir : fs.isDirectory path = false) :
    firstFile? fs (directoryCandidates fs extensions path) = none := by
  have hmain : Manifest.main? fs path = none := by
    by_contra hmain
    obtain ⟨main, hmain⟩ := Option.ne_none_iff_exists'.mp hmain
    rw [isDirectory_of_main hpath hmain] at hdir
    cases hdir
  rw [directoryCandidates, hmain]
  apply List.find?_eq_none.mpr
  intro candidate hcandidate hfile
  obtain ⟨extension, -, rfl⟩ := List.mem_map.mp hcandidate
  obtain ⟨loc, content, hfind⟩ := FileSystem.find_of_isFile hfile
  rw [FileSystem.isDirectory_of_find_below hpath isStep_index hfind] at hdir
  cases hdir

theorem resolveFile_eq (path : Path) : resolveFile fs extensions path =
    firstFile? fs
      (if path.text = "" then path :: withExtensions path extensions else candidatesAt fs extensions path) := by
  unfold resolveFile
  rw [resolveDirectory_eq]
  by_cases hpath : path.text = ""
  · have hdir : fs.isDirectory path = false := by rw [FileSystem.isDirectory, FileSystem.find_empty hpath]
    rw [hdir, if_pos hpath]
    exact Option.or_none
  · rw [if_neg hpath, candidatesAt, firstFile?_append]
    cases hdir : fs.isDirectory path with
    | true => rfl
    | false => rw [firstFile?_directoryCandidates hpath hdir, if_neg (by decide)]

/-! ## Resolution -/

theorem findSome?_resolveFile (starts : List Path) : starts.findSome? (resolveFile fs extensions) =
    firstFile? fs (starts.flatMap fun path =>
      if path.text = "" then path :: withExtensions path extensions else candidatesAt fs extensions path) := by
  induction starts with
  | nil => rfl
  | cons path rest ih =>
    rw [List.flatMap_cons, firstFile?_append, ← ih, ← resolveFile_eq, List.findSome?_cons]
    cases resolveFile fs extensions path <;> rfl

theorem resolve_eq (hbuiltin : r.isBuiltin q.specifier = false) :
    r.resolve fs q = match firstFile? fs (r.candidates fs q) with
      | some path => .ok (.file (realize fs path (r.preserves q)))
      | none => .error (.moduleNotFound q.specifier q.referrer) := by
  rw [resolve, hbuiltin, if_neg (by decide), findSome?_resolveFile]
  rfl

theorem firstFile?_eq_none_iff {paths : List Path} :
    firstFile? fs paths = none ↔ ∀ path ∈ paths, fs.isFile path = false := by
  simp [firstFile?]

/-- A path is empty only if it is joined from empty ones. -/
theorem empty_of_join (h : (dir.join path).text = "") : dir.text = "" ∧ path.text = "" := by
  unfold Path.join at h
  split at h
  · next habsolute =>
    rw [Path.isAbsolute, Path.lead, h] at habsolute
    cases habsolute
  · have hpieces : (dir.text = "" ∧ (dir.text ≠ "" → dir.text.toList.getLast? = some '/')) ∧ path.text = "" := by
      simpa [and_assoc] using h
    exact ⟨hpieces.1.1, hpieces.2⟩

/-- The empty path is searched when nothing is asked for in an empty folder. -/
theorem empty_of_starts (hstart : path ∈ q.starts fs) (hpath : path.text = "") :
    q.specifier = "" ∧ ⟨""⟩ ∈ q.search := by
  unfold Query.starts at hstart
  split at hstart
  · next hspecifier =>
    obtain rfl := List.mem_singleton.mp hstart
    have hempty : q.specifier = "" := (empty_of_join hpath).2
    rw [hempty] at hspecifier
    cases hspecifier
  · obtain ⟨folder, hfolder, rfl⟩ := List.mem_map.mp hstart
    obtain ⟨hempty, hspecifier⟩ := empty_of_join hpath
    refine ⟨hspecifier, ?_⟩
    obtain hfolder | hfolder := List.mem_append.mp hfolder
    · -- a module folder has a name
      obtain ⟨above, -, rfl⟩ := List.mem_map.mp hfolder
      exact absurd (empty_of_join hempty).2 (by decide)
    · obtain rfl : folder = ⟨""⟩ := congrArg Path.mk hempty
      exact hfolder

/-- More folders are searched last. -/
theorem candidates_search (r : Resolver) (fs : FileSystem) (q : Query) (more : List Path) :
    ∃ rest, r.candidates fs { q with search := q.search ++ more } = r.candidates fs q ++ rest := by
  have hstarts : ∃ rest, ({ q with search := q.search ++ more } : Query).starts fs = q.starts fs ++ rest := by
    unfold Query.starts
    split
    · exact ⟨[], rfl⟩
    · refine ⟨more.map fun dir => dir.join ⟨q.specifier⟩, ?_⟩
      rw [← List.append_assoc, List.map_append]
      rfl
  obtain ⟨rest, hrest⟩ := hstarts
  unfold candidates
  rw [hrest, List.flatMap_append]
  exact ⟨_, rfl⟩

/-- Resolution finds the first file among the candidates, and fails just if none of them is a file. The candidates are
all that each path may stand for, but for the empty path. Folders that are searched besides do not change what is found
without them. -/
theorem first_candidate (hbuiltin : r.isBuiltin q.specifier = false) :
    (r.resolve fs q = match firstFile? fs (r.candidates fs q) with
      | some path => .ok (.file (realize fs path (r.preserves q)))
      | none => .error (.moduleNotFound q.specifier q.referrer)) ∧
    (r.resolve fs q = .error (.moduleNotFound q.specifier q.referrer) ↔
      ∀ path ∈ r.candidates fs q, fs.isFile path = false) ∧
    (q.specifier ≠ "" ∨ ⟨""⟩ ∉ q.search →
      r.candidates fs q = (q.starts fs).flatMap (candidatesAt fs (r.extensionsFor q.format))) ∧
    ∀ more found, r.resolve fs q = .ok found → r.resolve fs { q with search := q.search ++ more } = .ok found := by
  have heq := @resolve_eq fs r q hbuiltin
  refine ⟨heq, ?_, ?_, ?_⟩
  · rw [heq, ← firstFile?_eq_none_iff]
    cases firstFile? fs (r.candidates fs q) <;> simp
  · intro hnonempty
    unfold candidates
    apply List.flatMap_congr
    intro path hpath
    refine if_neg fun hempty => ?_
    obtain ⟨hspecifier, hsearch⟩ := empty_of_starts hpath hempty
    exact hnonempty.elim (· hspecifier) (· hsearch)
  · intro more found hfound
    obtain ⟨rest, hrest⟩ := candidates_search r fs q more
    have hmore := @resolve_eq fs r { q with search := q.search ++ more } hbuiltin
    rw [hmore, hrest, firstFile?_append]
    rw [heq] at hfound
    cases hfirst : firstFile? fs (r.candidates fs q) with
    | none =>
      rw [hfirst] at hfound
      cases hfound
    | some path =>
      rw [hfirst] at hfound
      exact hfound

/-- The resolver for which nothing is set. -/
def plain : Resolver := .ofConfig (.default ⟨none, none⟩)

/-- A package whose manifest names a directory with an index file. -/
def packageFiles : FileSystem where
  nodes := ⟨[
    (["app"], .directory),
    (["node_modules", "app"], .directory),
    (["pkg", "node_modules", "app"], .directory),
    (["package.json", "pkg", "node_modules", "app"], .file "\x7b\"main\":\"lib\"\x7d".toUTF8),
    (["lib", "pkg", "node_modules", "app"], .directory),
    (["index.js", "lib", "pkg", "node_modules", "app"], .file "exports.n = 1".toUTF8)]⟩
  workingDirectory := ["app"]

theorem first_candidate_package :
    let q : Query := ⟨"pkg", some ⟨"/app/main.js"⟩, .legacy, false, []⟩
    plain.isBuiltin q.specifier = false ∧
      firstFile? packageFiles (plain.candidates packageFiles q) = some ⟨"/app/node_modules/pkg/lib/index.js"⟩ ∧
      plain.resolve packageFiles q = .ok (.file ⟨"/app/node_modules/pkg/lib/index.js"⟩) := by
  intro q
  have hbuiltin : plain.isBuiltin q.specifier = false := by decide +kernel
  have hfirst : firstFile? packageFiles (plain.candidates packageFiles q) =
      some ⟨"/app/node_modules/pkg/lib/index.js"⟩ := by decide +kernel
  refine ⟨hbuiltin, hfirst, ?_⟩
  rw [(first_candidate hbuiltin).1, hfirst]
  decide +kernel

/-! ## Nothing in an empty folder -/

/-- A working directory with an index file. -/
def indexFiles : FileSystem where
  nodes := ⟨[(["app"], .directory), (["index.js", "app"], .file "".toUTF8)]⟩
  workingDirectory := ["app"]

/-- When nothing is asked for in an empty folder, the list without the exception for the empty path has an index file
that resolution does not find: the empty path is no directory. -/
theorem index_of_nothing :
    let q : Query := ⟨"", none, .legacy, false, [⟨""⟩]⟩
    plain.isBuiltin q.specifier = false ∧
      firstFile? indexFiles ((q.starts indexFiles).flatMap (candidatesAt indexFiles (plain.extensionsFor q.format))) =
        some ⟨"index.js"⟩ ∧
      plain.resolve indexFiles q = .error (.moduleNotFound "" none) := by
  decide +kernel

end Resolver

end ModGraph
