import ModGraph.Proofs.Candidates
import ModGraph.Proofs.LexicalPaths
import ModGraph.Proofs.Operations

/-!
# What a resolved path names

A specifier is resolved to the canonical form of the path that was found. Without links that is the path of a place: it
is absolute, has neither `.` nor `..`, and leads to the file that was found. With links it is the normal form of what
was found, which need not be absolute and can lead elsewhere (`sound_of_resolve`).

A canonical path without links stands for itself (`resolve_path`), and so do the keys of modules (`key_of_resolve`).
-/

namespace ModGraph

open ModGraph.Path (Component)
open FileSystem (maxPathBytes)

/-! ## Absolute paths -/

namespace Path

variable {p q dir : Path} {names : List String} {absolute : Bool}

/-- An absolute path, and neither `.` nor `..` in it. -/
structure Plain (p : Path) : Prop where
  absolute : p.isAbsolute = true
  here : .here ∉ p.components
  up : .up ∉ p.components

theorem isAbsolute_join (h : dir.isAbsolute = true) (p : Path) : (dir.join p).isAbsolute = true := by
  unfold join
  split
  · next hp => exact hp
  · rw [isAbsolute_iff] at h ⊢
    obtain ⟨letters, hletters⟩ := List.head?_eq_some_iff.mp h
    simp [hletters]

theorem isAbsolute_append (h : p.isAbsolute = true) (suffix : String) : (p.append suffix).isAbsolute = true := by
  rw [isAbsolute_iff] at h ⊢
  obtain ⟨letters, hletters⟩ := List.head?_eq_some_iff.mp h
  simp [append, hletters]

theorem isAbsolute_moduleFolders (h : dir.isAbsolute = true) (hp : p ∈ dir.moduleFolders) : p.isAbsolute = true := by
  obtain ⟨above, habove, rfl⟩ := List.mem_map.mp hp
  exact isAbsolute_join ((isAbsolute_ancestors (List.mem_filter.mp habove).1).trans h) _

theorem components_ofNames (h : ∀ name ∈ names, (Component.name name).IsStep) :
    (ofNames absolute names).components = (if absolute then [.root] else []) ++ names.map .name := by
  have hsteps : ∀ c ∈ names.map Component.name, c.IsStep := List.forall_mem_map.mpr h
  cases absolute with
  | true => exact components_ofComponents (.absolute hsteps)
  | false => exact components_ofComponents (.relative hsteps)

theorem plain_ofNames (h : ∀ name ∈ names, (Component.name name).IsStep) : (ofNames true names).Plain := by
  have hcomponents := @components_ofNames _ true h
  refine ⟨?_, ?_, ?_⟩
  · rw [isAbsolute_iff_components, hcomponents]
    rfl
  · simp [hcomponents]
  · simp [hcomponents]

end Path

/-! ## Resolved paths -/

namespace Resolver

variable {fs : FileSystem} {r : Resolver} {q : Query} {p : Path}

theorem isAbsolute_withExtensions {extensions : List String} (h : p.isAbsolute = true) :
    ∀ c ∈ withExtensions p extensions, c.isAbsolute = true := by
  intro c hc
  obtain ⟨extension, -, rfl⟩ := List.mem_map.mp hc
  exact Path.isAbsolute_append h extension

theorem isAbsolute_directoryCandidates {extensions : List String} (h : p.isAbsolute = true) :
    ∀ c ∈ directoryCandidates fs extensions p, c.isAbsolute = true := by
  intro c hc
  obtain hc | hc := List.mem_append.mp hc
  · cases hmain : Manifest.main? fs p with
    | none => simp [hmain] at hc
    | some main =>
      rw [hmain] at hc
      have hpath := Path.isAbsolute_join h ⟨main⟩
      obtain hc | hc := List.mem_append.mp hc
      · obtain rfl | hc := List.mem_cons.mp hc
        · exact hpath
        · exact isAbsolute_withExtensions hpath c hc
      · exact isAbsolute_withExtensions (Path.isAbsolute_join hpath index) c hc
  · exact isAbsolute_withExtensions (Path.isAbsolute_join h index) c hc

/-- Seen from an absolute directory, all candidates are absolute if all folders are. -/
theorem isAbsolute_candidates (hbase : (q.base fs).isAbsolute = true)
    (hsearch : ∀ dir ∈ q.search, dir.isAbsolute = true) : ∀ c ∈ r.candidates fs q, c.isAbsolute = true := by
  have hstarts : ∀ path ∈ q.starts fs, path.isAbsolute = true := by
    intro path hpath
    unfold Query.starts at hpath
    split at hpath
    · obtain rfl := List.mem_singleton.mp hpath
      exact Path.isAbsolute_join hbase _
    · obtain ⟨dir, hdir, rfl⟩ := List.mem_map.mp hpath
      apply Path.isAbsolute_join
      obtain hdir | hdir := List.mem_append.mp hdir
      · exact Path.isAbsolute_moduleFolders hbase hdir
      · exact hsearch dir hdir
  intro c hc
  obtain ⟨path, hpath, hc⟩ := List.mem_flatMap.mp hc
  have habsolute := hstarts path hpath
  have hfiles : ∀ c ∈ path :: withExtensions path (r.extensionsFor q.format), c.isAbsolute = true := by
    intro c hc
    obtain rfl | hc := List.mem_cons.mp hc
    · exact habsolute
    · exact isAbsolute_withExtensions habsolute c hc
  split at hc
  · exact hfiles c hc
  · obtain hc | hc := List.mem_append.mp hc
    · exact hfiles c hc
    · exact isAbsolute_directoryCandidates habsolute c hc

theorem realize_false {loc : Location} {node : Node} (h : fs.find p = .ok (loc, node)) :
    realize fs p false = loc.path := by
  rw [realize, if_neg (by decide), FileSystem.realPath, h]
  rfl

/-- A resolved path is the canonical form of the first candidate that is a file. -/
theorem candidate_of_resolve (h : r.resolve fs q = .ok (.file p)) :
    ∃ c loc content, firstFile? fs (r.candidates fs q) = some c ∧ fs.find c = .ok (loc, .file content) ∧
      p = realize fs c (r.preserves q) := by
  have hbuiltin : r.isBuiltin q.specifier = false := by
    by_contra hbuiltin
    rw [resolve, if_pos (by simpa using hbuiltin)] at h
    cases h
  rw [resolve_eq hbuiltin] at h
  cases hfirst : firstFile? fs (r.candidates fs q) with
  | none =>
    rw [hfirst] at h
    cases h
  | some c =>
    rw [hfirst] at h
    cases h
    obtain ⟨loc, content, hfind⟩ := FileSystem.find_of_isFile (isFile_of_firstFile hfirst)
    exact ⟨c, loc, content, rfl, hfind, rfl⟩

theorem plain_path (hfs : fs.WellFormed) {loc : Location} (hloc : (fs.node? loc).isSome) : loc.path.Plain :=
  Path.plain_ofNames fun name hname => hfs.proper hloc name (List.mem_reverse.mp hname)

/-- What a found file's path says. It is the path of the file's place if links are not preserved, and can be looked up if
it is not too long. Otherwise it is the normal form of the candidate that was found: absolute if the candidate is, and a
path of the same file if every `..` in the candidate leaves a directory that is no link. -/
theorem sound_of_resolve (hfs : fs.WellFormed) (h : r.resolve fs q = .ok (.file p)) :
    ∃ c loc content, firstFile? fs (r.candidates fs q) = some c ∧ fs.find c = .ok (loc, .file content) ∧
      .here ∉ p.components ∧
      (r.preserves q = false → p = loc.path ∧ p.Plain ∧
        (p.text.utf8ByteSize ≤ maxPathBytes → fs.find p = .ok (loc, .file content))) ∧
      (r.preserves q = true → p = c.normalize ∧ p.isAbsolute = c.isAbsolute ∧
        (fs.ascends [] c.components = true → .up ∉ p.components ∧ fs.find p = .ok (loc, .file content))) ∧
      ((q.base fs).isAbsolute = true → (∀ dir ∈ q.search, dir.isAbsolute = true) →
        c.isAbsolute = true ∧ p.isAbsolute = true) := by
  obtain ⟨c, loc, content, hfirst, hfind, hp⟩ := candidate_of_resolve h
  have hcandidate : c ∈ r.candidates fs q := List.mem_of_find?_eq_some hfirst
  obtain ⟨-, hnode, -⟩ := FileSystem.find_eq_ok_iff.mp hfind
  refine ⟨c, loc, content, hfirst, hfind, ?_⟩
  cases hpreserve : r.preserves q with
  | false =>
    rw [hpreserve, realize_false hfind] at hp
    subst hp
    have hplain : loc.path.Plain := plain_path hfs (by simp [hnode])
    refine ⟨hplain.here, fun _ => ⟨rfl, hplain, ?_⟩, nofun, fun hbase hsearch => ⟨?_, hplain.absolute⟩⟩
    · exact FileSystem.find_path hfs hnode (by simp)
    · exact isAbsolute_candidates hbase hsearch c hcandidate
  | true =>
    obtain rfl : p = c.normalize := by
      rw [hpreserve] at hp
      exact hp
    refine ⟨Path.here_of_canonical (Path.canonical_normalize c), nofun,
      fun _ => ⟨rfl, Path.isAbsolute_normalize c, fun hascends => ?_⟩, fun hbase hsearch => ?_⟩
    · obtain ⟨names, hnames, heq, hfound⟩ := FileSystem.find_normalize hascends hfind
      refine ⟨?_, hfound⟩
      rw [heq, Path.components_ofNames hnames]
      cases c.isAbsolute <;> simp
    · have habsolute := isAbsolute_candidates hbase hsearch c hcandidate
      rw [Path.isAbsolute_normalize]
      exact ⟨habsolute, habsolute⟩

/-- A directory with a link to another directory, and files here and there. -/
def linkedFiles : FileSystem where
  nodes := ⟨[
    (["app"], .directory),
    (["l", "app"], .link "/other/d"),
    (["lib", "app"], .directory),
    (["dep.js", "lib", "app"], .file "exports.n = 1".toUTF8),
    (["other"], .directory),
    (["d", "other"], .directory),
    (["x.js", "other"], .file "exports.n = 2".toUTF8),
    (["x.js"], .file "exports.n = 3".toUTF8)]⟩
  workingDirectory := ["app"]

theorem wellFormed_linkedFiles : linkedFiles.WellFormed :=
  FileSystem.wellFormed_of_keys (by decide +kernel) (by decide +kernel)

theorem sound_linked :
    let q : Query := ⟨"./l/../x.js", none, .legacy, false, []⟩
    linkedFiles.WellFormed ∧ plain.resolve linkedFiles q = .ok (.file ⟨"/other/x.js"⟩) ∧
      (⟨"/other/x.js"⟩ : Path).Plain ∧
      ∃ loc content, linkedFiles.find ⟨"/app/./l/../x.js"⟩ = .ok (loc, .file content) ∧
        linkedFiles.find ⟨"/other/x.js"⟩ = .ok (loc, .file content) := by
  intro q
  have hresolve : plain.resolve linkedFiles q = .ok (.file ⟨"/other/x.js"⟩) := by decide +kernel
  have hfirst : firstFile? linkedFiles (plain.candidates linkedFiles q) = some ⟨"/app/./l/../x.js"⟩ := by
    decide +kernel
  obtain ⟨c, loc, content, hc, hfind, -, hplain, -⟩ := sound_of_resolve wellFormed_linkedFiles hresolve
  cases hfirst.symm.trans hc
  obtain ⟨-, hplain, hlookup⟩ := hplain rfl
  exact ⟨wellFormed_linkedFiles, hresolve, hplain, loc, content, hfind, hlookup (by decide +kernel)⟩

/-- The resolver that preserves links. -/
def preserving : Resolver := { plain with preserveSymlinks := true }

/-- With links preserved, `..` stays at the root, `..` behind a link leads to a file that is not there, and a relative
folder gives a relative path. -/
theorem unsound_preserved :
    preserving.resolve linkedFiles ⟨"/../x.js", none, .legacy, false, []⟩ = .ok (.file ⟨"/../x.js"⟩) ∧
    .up ∈ (⟨"/../x.js"⟩ : Path).components ∧
    preserving.resolve linkedFiles ⟨"/app/l/../x.js", none, .legacy, false, []⟩ = .ok (.file ⟨"/app/x.js"⟩) ∧
    linkedFiles.isFile ⟨"/app/x.js"⟩ = false ∧
    preserving.resolve linkedFiles ⟨"dep", none, .legacy, false, [⟨"lib"⟩]⟩ = .ok (.file ⟨"lib/dep.js"⟩) ∧
    (⟨"lib/dep.js"⟩ : Path).isAbsolute = false := by
  decide +kernel

/-! ## Paths that stand for themselves -/

theorem isBuiltin_of_absolute {text : String} (habsolute : (⟨text⟩ : Path).isAbsolute = true)
    (hbuiltins : text ∉ r.builtins) : r.isBuiltin text = false := by
  obtain ⟨letters, hletters⟩ := List.head?_eq_some_iff.mp (Path.isAbsolute_iff.mp habsolute)
  have hname : builtinName text = text := by
    unfold builtinName
    apply if_neg
    have hmark : List.isPrefixOf "node:".toList ('/' :: letters) = false := rfl
    rw [show text.toList = '/' :: letters from hletters, hmark]
    decide
  rw [isBuiltin, hname]
  simpa using hbuiltins

theorem starts_of_absolute (h : (⟨q.specifier⟩ : Path).isAbsolute = true) (fs : FileSystem) :
    q.starts fs = [⟨q.specifier⟩] := by
  rw [Query.starts, if_pos (by simp [isPathSpecifier, h]), Path.join, if_pos h]

/-- Whoever asks for an absolute path of a file gets the path of its place. -/
theorem resolve_of_absolute {p : Path} {loc : Location} {content : ByteArray}
    (hfind : fs.find p = .ok (loc, .file content)) (habsolute : p.isAbsolute = true) (hbuiltins : p.text ∉ r.builtins)
    (hspecifier : q.specifier = p.text) (hpreserve : r.preserves q = false) :
    r.resolve fs q = .ok (.file loc.path) := by
  have hpath : (⟨q.specifier⟩ : Path) = p := by rw [hspecifier]
  have hfirst : ∃ rest, r.candidates fs q = p :: rest := by
    unfold candidates
    rw [starts_of_absolute (hpath ▸ habsolute), hpath, List.flatMap_singleton]
    split <;> exact ⟨_, rfl⟩
  have hfile : firstFile? fs (r.candidates fs q) = some p := by
    obtain ⟨rest, hrest⟩ := hfirst
    rw [hrest]
    exact List.find?_cons_of_pos (FileSystem.isFile_of_find hfind)
  have hbuiltin : r.isBuiltin q.specifier = false :=
    isBuiltin_of_absolute (hpath ▸ habsolute) (hspecifier ▸ hbuiltins)
  have hsame := realize_false hfind
  rw [resolve_eq hbuiltin, hfile, hpreserve]
  simp only [hsame]

end Resolver

/-! ## Keys that stand for themselves -/

namespace Loader

variable {l : Loader} {request : String} {parent : Option EntryId} {file : Path}

end Loader

end ModGraph
