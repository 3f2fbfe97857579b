import ModGraph.Proofs.Evolution
import ModGraph.Proofs.FileNames

/-!
# Names in file systems that a loader writes to

A loader with a code cache makes directories and files while it loads. Their names come from the path of
the cache's directory, from digests, and from the links on the way. If none of these holds a query mark,
the loader never makes a name that does (`Loader.Unmarked.respects`).
-/

namespace ModGraph

/-! ## Operations on file systems -/

namespace FileSystem

variable {fs fs' : FileSystem}

/-- No link leads to a name with a query mark. -/
def LinksUnmarked (fs : FileSystem) : Prop :=
  ∀ loc target, fs.nodes.get? loc = some (.link target) → ModGraph.Unmarked target

/-- The names of a file system hold no query mark, and neither do the names that its links lead to. -/
structure Writable (fs : FileSystem) : Prop where
  names : fs.Unmarked
  links : fs.LinksUnmarked

theorem unmarked_of_mem_names {text name : String} (h : ModGraph.Unmarked text)
    (hn : name ∈ FileSystem.names text) : ModGraph.Unmarked name := by
  obtain ⟨piece, hp, rfl⟩ := List.mem_map.mp hn
  intro c hc
  exact h c (Text.mem_of_mem_split (List.mem_filter.mp hp).1 (by simpa using hc))

theorem unmarked_of_mem_steps {text name : String} (h : ModGraph.Unmarked text)
    (hn : name ∈ steps text) : ModGraph.Unmarked name := by
  unfold steps at hn
  split at hn
  · rcases List.mem_append.mp hn with hn | hn
    · exact unmarked_of_mem_names h hn
    · obtain rfl := List.mem_singleton.mp hn
      simp [ModGraph.Unmarked, isQueryMark]
  · exact unmarked_of_mem_names h hn

/-- All names of a place are free of query marks. -/
def Clean (loc : Location) : Prop := ∀ name ∈ loc, ModGraph.Unmarked name

theorem clean_cons {name : String} {loc : Location} (hn : ModGraph.Unmarked name) (h : Clean loc) :
    Clean (name :: loc) := by
  intro other ho
  rcases List.mem_cons.mp ho with rfl | ho
  · exact hn
  · exact h other ho

theorem clean_walkNames {follow : Bool} {jump : Location → String → List String → Except Fault Location}
    {found : Location} (hfs : fs.Writable)
    (hjump : ∀ loc target rest, ModGraph.Unmarked target → Clean loc → Clean rest →
      jump loc target rest = .ok found → Clean found)
    {names : List String} {loc : Location} (hloc : Clean loc) (hnames : Clean names)
    (h : fs.walkNames follow jump loc names = .ok found) : Clean found := by
  induction names generalizing loc with
  | nil =>
    cases h
    exact hloc
  | cons first rest ih =>
    have hfirst : ModGraph.Unmarked first := hnames first List.mem_cons_self
    have hrest : Clean rest := fun name hn => hnames name (List.mem_cons_of_mem _ hn)
    unfold walkNames at h
    split at h
    · cases h
    split at h
    · exact ih hloc hrest h
    split at h
    · exact ih (fun name hn => hloc name (List.mem_of_mem_tail hn)) hrest h
    split at h
    · cases h
    split at h
    · next target hnode =>
      split at h
      · cases h
        exact clean_cons hfirst hloc
      · exact hjump _ _ _ (hfs.links _ _ hnode) hloc hrest h
    · exact ih (clean_cons hfirst hloc) hrest h
    · split at h
      · cases h
        exact clean_cons hfirst hloc
      · cases h

theorem clean_walk {follow : Bool} {links : Nat} {loc found : Location} {names : List String}
    (hfs : fs.Writable) (hloc : Clean loc) (hnames : Clean names)
    (h : fs.walk follow links loc names = .ok found) : Clean found := by
  induction links generalizing loc names with
  | zero => exact clean_walkNames hfs (fun _ _ _ _ _ _ h => by cases h) hloc hnames h
  | succ links ih =>
    refine clean_walkNames hfs (fun loc target rest ht hloc hrest hj => ?_) hloc hnames h
    have hstart : Clean (start loc target) := by
      unfold start
      split
      · exact fun name hn => absurd hn List.not_mem_nil
      · exact hloc
    refine ih hstart (fun name hn => ?_) hj
    rcases List.mem_append.mp hn with hn | hn
    · exact unmarked_of_mem_steps ht hn
    · exact hrest name hn

/-- A look-up that goes through names at all starts in a directory that is there. -/
theorem clean_start {follow : Bool} {links : Nat} {text : String} {found : Location} {names : List String}
    (hfs : fs.Writable) (hnames : names ≠ [])
    (h : fs.walk follow links (start fs.workingDirectory text) names = .ok found) :
    Clean (start fs.workingDirectory text) := by
  have hdir : fs.isDirectoryAt (start fs.workingDirectory text) = true := by
    cases names with
    | nil => exact absurd rfl hnames
    | cons first rest =>
      cases hd : fs.isDirectoryAt (start fs.workingDirectory text) with
      | true => rfl
      | false => cases links <;> simp [walk, walkNames, hd] at h
  refine unmarked_of_node hfs.names ?_
  unfold isDirectoryAt at hdir
  split at hdir
  · next hnode => simp [hnode]
  · cases hdir

theorem names_ne_nil {text : String} (h : text.isEmpty = false) (hs : text.toList.head? ≠ some '/') :
    FileSystem.names text ≠ [] := by
  have hcs : text.toList ≠ [] := by simpa using h
  cases hl : text.toList with
  | nil => exact absurd hl hcs
  | cons c cs =>
    have hc : c ≠ '/' := by
      rw [hl] at hs
      simpa using hs
    cases hsplit : Text.split '/' cs with
    | nil => exact absurd hsplit (Text.split_ne_nil _ _)
    | cons piece rest => simp [FileSystem.names, hl, Text.split, hc, hsplit]

theorem text_ne_empty {p : Path} {text : String} (h : checkedText p = .ok text) :
    p.text.isEmpty = false := by
  unfold checkedText at h
  repeat' split at h
  all_goals simp_all

theorem clean_locate {follow : Bool} {p : Path} {found : Location} (hfs : fs.Writable)
    (hp : ModGraph.Unmarked p.text) (h : fs.locate follow p = .ok found) : Clean found := by
  obtain ⟨htext, hwalk⟩ := locate_eq_ok_iff.mp h
  refine clean_walk hfs ?_ (fun name hn => unmarked_of_mem_steps hp hn) hwalk
  by_cases hs : p.text.toList.head? = some '/'
  · simp [start, hs, Clean]
  · have hne := names_ne_nil (text_ne_empty htext) hs
    refine clean_start hfs ?_ hwalk
    unfold steps
    split <;> simp [hne]

theorem Writable.put {loc : Location} {node : Node} (h : fs.Writable) (hloc : Clean loc)
    (hnode : ∀ target, node ≠ .link target) : (fs.put loc node).Writable := by
  constructor
  · intro loc' hloc' name hname
    have hmem := (Table.mem_keys_iff _ _).mp hloc'
    rw [FileSystem.put, Table.get?_insert] at hmem
    split at hmem
    · next heq => exact hloc name (heq ▸ hname)
    · exact h.names loc' ((Table.mem_keys_iff _ _).mpr hmem) name hname
  · intro loc' target hget
    rw [FileSystem.put, Table.get?_insert] at hget
    split at hget
    · exact absurd (Option.some.inj hget) (hnode target)
    · exact h.links loc' target hget

theorem Writable.removeTree (h : fs.Writable) (loc : Location) : (fs.removeTree loc).Writable := by
  have hkept : ∀ {loc' node}, (fs.removeTree loc).nodes.get? loc' = some node →
      fs.nodes.get? loc' = some node := by
    intro loc' node hget
    rw [FileSystem.removeTree, Table.get?_restrict] at hget
    split at hget
    · exact hget
    · cases hget
  constructor
  · intro loc' hloc' name hname
    obtain ⟨node, hnode⟩ := Option.isSome_iff_exists.mp ((Table.mem_keys_iff _ _).mp hloc')
    exact h.names loc' ((Table.mem_keys_iff _ _).mpr (by simp [hkept hnode])) name hname
  · exact fun loc' target hget => h.links loc' target (hkept hget)

theorem Writable.removeFile {p : Path} (h : fs.Writable) (hr : fs.removeFile p = .ok fs') :
    fs'.Writable := by
  obtain ⟨loc, node, -, -, -, rfl⟩ := removeFile_eq_ok hr
  exact h.removeTree loc

theorem Writable.writeBytes {p : Path} {content : ByteArray} (h : fs.Writable)
    (hp : ModGraph.Unmarked p.text) (hw : fs.writeBytes p content = .ok fs') : fs'.Writable := by
  obtain ⟨loc, hloc, -, rfl⟩ := writeBytes_eq_ok hw
  exact h.put (clean_locate h hp hloc) (by simp)

theorem Vacancy.clean {p : Path} {name : String} {above : Location} (hv : fs.Vacancy p name above) (h : fs.Writable)
    (hp : ModGraph.Unmarked p.text) : Clean (name :: above) := by
  have habove := isDirectoryAt_iff.mp hv.directory
  exact clean_cons (unmarked_of_mem_names hp hv.last) (unmarked_of_node h.names (by simp [habove]))

theorem Writable.ensureDirectory {p : Path} (h : fs.Writable) (hp : ModGraph.Unmarked p.text)
    (he : fs.ensureDirectory p = .ok fs') : fs'.Writable := by
  obtain rfl | ⟨name, above, hfree, rfl⟩ := ensureDirectory_eq_ok he
  · exact h
  · exact h.put (hfree.clean h hp) (by simp)

theorem Writable.ensureDirectories {dirs : List Path} (h : fs.Writable)
    (hdirs : ∀ dir ∈ dirs, ModGraph.Unmarked dir.text) : (fs.ensureDirectories dirs).1.Writable :=
  ensureDirectories_induction (fun dir hmem hfs hok => hfs.ensureDirectory (hdirs dir hmem) hok) h

end FileSystem

/-! ## Paths of the code cache -/

theorem Path.unmarked_parent {p q : Path} (hp : Unmarked p.text) (h : p.parent = some q) :
    Unmarked q.text := by
  have hpieces : ∀ piece ∈ p.pieces, ∀ c ∈ piece, isQueryMark c = false := by
    intro piece hpiece c hc
    refine hp c ?_
    rw [← chars_cutLead p.text.toList]
    exact List.mem_append_right _ (Text.mem_of_mem_split hpiece hc)
  unfold parent at h
  split at h
  · next piece above hback =>
    cases h
    intro c hc
    simp only [String.toList_ofList, List.mem_append] at hc
    rcases hc with hc | hc
    · cases hl : p.lead <;> simp_all [Lead.chars, isQueryMark]
    · rcases Text.mem_join hc with rfl | ⟨other, ho, hc⟩
      · rfl
      · refine hpieces other ?_ c hc
        have habove : other ∈ p.backPieces := by
          rw [hback]
          exact List.mem_cons_of_mem _ ((List.dropWhile_suffix _).mem (List.mem_reverse.mp ho))
        exact List.mem_reverse.mp ((List.dropWhile_suffix _).mem habove)
  · split at h <;> cases h
    simp [Unmarked]

theorem Path.unmarked_ancestors {p dir : Path} (hp : Unmarked p.text) (h : dir ∈ p.ancestors) :
    Unmarked dir.text := by
  induction hn : p.text.toList.length using Nat.strong_induction_on generalizing p with
  | _ n ih =>
    rw [ancestors_eq] at h
    rcases List.mem_cons.mp h with rfl | h
    · exact hp
    · cases hq : p.parent with
      | none => simp [hq] at h
      | some q =>
        rw [hq] at h
        exact ih _ (hn ▸ length_parent_lt hq) (unmarked_parent hp hq) h rfl

theorem Path.unmarked_join {p q : Path} (hp : Unmarked p.text) (hq : Unmarked q.text) :
    Unmarked (p.join q).text := by
  unfold join
  split
  · exact hq
  · intro c hc
    simp only [String.toList_ofList, List.mem_append] at hc
    rcases hc with (hc | hc) | hc
    · exact hp c hc
    · split at hc
      · cases hc
      · obtain rfl := List.mem_singleton.mp hc
        rfl
    · exact hq c hc

/-- A digest is written in digits. -/
theorem digit_of_mem_digest {text : String} {c : Char} (h : c ∈ (Digest.ofText text).toList) :
    ∃ n < 16, c = Text.hexDigit n := by
  simp only [Digest.ofText, String.toList_ofList, List.mem_flatMap] at h
  obtain ⟨b, -, hc⟩ := h
  have hb := b.toNat_lt
  simp only [Text.hexByte, List.mem_cons, List.not_mem_nil, or_false] at hc
  rcases hc with rfl | rfl
  · exact ⟨_, by omega, rfl⟩
  · exact ⟨_, by omega, rfl⟩

namespace CodeCache

/-- The name of the file for a path and a source. -/
def blobName (path : Path) (source : String) : String :=
  s!"{short (Digest.ofText path.text)}-{short (Digest.ofText source)}.json"

theorem blob_eq (cache : CodeCache) (path : Path) (source : String) :
    cache.blob path (Digest.ofText source) = cache.dir.join ⟨blobName path source⟩ := rfl

theorem toList_blobName (path : Path) (source : String) :
    (blobName path source).toList = (short (Digest.ofText path.text)).toList ++ '-' ::
      ((short (Digest.ofText source)).toList ++ ".json".toList) := by
  simp [blobName, toString]

/-- A property of digits and of the few characters beside them holds of every character of the name. -/
theorem forall_mem_blobName {P : Char → Prop} (hdigit : ∀ n < 16, P (Text.hexDigit n))
    (hother : ∀ c ∈ ['-', '.', 'j', 's', 'o', 'n'], P c) (path : Path) (source : String) :
    ∀ c ∈ (blobName path source).toList, P c := by
  have hshort : ∀ text, ∀ c ∈ (short (Digest.ofText text)).toList, P c := by
    intro text c hc
    obtain ⟨n, hn, rfl⟩ := digit_of_mem_digest (List.mem_of_mem_take (by simpa [short] using hc))
    exact hdigit n hn
  intro c hc
  simp only [toList_blobName, List.mem_append, List.mem_cons] at hc
  rcases hc with hc | rfl | hc | hc
  · exact hshort _ c hc
  · exact hother _ List.mem_cons_self
  · exact hshort _ c hc
  · exact hother _ (List.mem_cons_of_mem '-' hc)

theorem unmarked_blob {cache : CodeCache} (h : Unmarked cache.dir.text) (path : Path) (source : String) :
    Unmarked (cache.blob path (Digest.ofText source)).text :=
  Path.unmarked_join h (forall_mem_blobName (by decide) (by simp [isQueryMark]) path source)

end CodeCache

/-! ## Loaders -/

namespace Loader

/-- No name in the file system holds a query mark, and the code cache makes none that does. -/
structure Unmarked (l : Loader) : Prop where
  names : l.files.Unmarked
  stored : ∀ {cache}, l.codeCache? = some cache → ModGraph.Unmarked cache.dir.text ∧ l.files.LinksUnmarked

namespace Unmarked

variable {l : Loader}

theorem writable (h : l.Unmarked) {cache : CodeCache} (hc : l.codeCache? = some cache) :
    l.files.Writable := ⟨h.names, (h.stored hc).2⟩

theorem withFiles (h : l.Unmarked) {fs : FileSystem} (hfs : fs.Writable) :
    Unmarked { l with files := fs } where
  names := hfs.names
  stored hc := ⟨(h.stored hc).1, hfs.links⟩

theorem of_eq {l' : Loader} (h : l.Unmarked) (hf : l'.files = l.files)
    (hc : l'.codeCache? = l.codeCache?) : l'.Unmarked := by
  refine ⟨by rw [hf]; exact h.names, fun hcache => ?_⟩
  rw [hf]
  exact h.stored (hc ▸ hcache)

end Unmarked

/-- What an action must not do: make a name with a query mark. -/
def KeepsUnmarked (l l' : Loader) : Prop := l.Unmarked → l'.Unmarked

namespace KeepsUnmarked

instance : IsPreorder Loader KeepsUnmarked where
  refl _ := id
  trans _ _ _ h h' := h' ∘ h

/-- Most actions do not touch the file system at all. -/
theorem of_eq {l l' : Loader} (hf : l'.files = l.files) (hc : l'.codeCache? = l.codeCache?) :
    KeepsUnmarked l l' := fun h => h.of_eq hf hc

theorem report (event : Event) : Follows KeepsUnmarked (Loader.report event) := fun _ => of_eq rfl rfl

/-- A look-up in the code cache removes at most a file. -/
theorem lookup {l : Loader} {cache : CodeCache} (hc : l.codeCache? = some cache) (path : Path) (digest : String) :
    KeepsUnmarked l { l with files := CodeCache.afterLookup l.files (cache.lookup l.files path digest) } := by
  intro h
  obtain heq | hremove := cache.afterLookup_cases l.files path digest
  · rw [heq]
    exact h
  · exact h.withFiles ((h.writable hc).removeFile hremove)

/-- A program is stored under a name made of digests. -/
theorem store {l : Loader} {cache : CodeCache} (hc : l.codeCache? = some cache) (path : Path) (source : String)
    (p : Source.Program) :
    KeepsUnmarked l { l with files := (cache.store l.files path (Digest.ofText source) p).1 } := by
  intro h
  have hmade : (l.files.makeDirectories cache.dir).1.Writable :=
    (h.writable hc).ensureDirectories fun dir hd => Path.unmarked_ancestors (h.stored hc).1 hd
  refine h.withFiles ?_
  obtain heq | hwrite := cache.store_cases l.files path (Digest.ofText source) p
  · rw [heq]
    exact hmade
  · exact hmade.writeBytes (CodeCache.unmarked_blob (h.stored hc).1 _ _) hwrite

theorem reading : Reading KeepsUnmarked where
  toIsPreorder := inferInstance
  report event _ := report event
  remember _ _ _ := of_eq rfl rfl
  lookup := lookup
  store := store

theorem respects : Respects KeepsUnmarked where
  toIsPreorder := inferInstance
  report := report
  addEntry _ := fun _ => of_eq rfl rfl
  updateEntry _ _ _ := fun _ => of_eq rfl rfl
  updateCache _ := fun _ => of_eq rfl rfl
  builtin name := by
    intro l
    unfold Loader.builtin
    rw [run_bind, run_get, andThen_ok]
    cases l.cache.builtins.get? name <;> exact of_eq rfl rfl
  package _ := fun _ => of_eq rfl rfl
  source := reading.source
  program := reading.program

end KeepsUnmarked
end Loader
end ModGraph
