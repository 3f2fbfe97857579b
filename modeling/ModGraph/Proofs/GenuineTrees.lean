import ModGraph.FileSystem.Snapshot
import ModGraph.Proofs.Operations
import ModGraph.Proofs.StoredNames
import ModGraph.Proofs.Ways

/-!
# Trees that the program can see

A tree begins with its root, and whatever is done to it keeps it well formed (`Genuine`): an entry is made in a
directory that is there, under a name from a path or from a link, and what is removed goes with all that lies below it.
So the trees that are set up for the program are well formed (`genuine_ofSnapshot`), and they stay so while a loader
keeps its programs in them (`genuine_of_reachable`).
-/

namespace ModGraph

namespace FileSystem

variable {fs fs' : FileSystem} {loc above found : Location} {name : String} {path : Path}

/-! ## Genuine trees -/

/-- A well-formed tree whose links have targets that can be looked up. -/
structure Genuine (fs : FileSystem) : Prop extends WellFormed fs where
  aimed : ∀ {loc target}, fs.node? loc = some (.link target) → '\x00' ∉ target.toList

theorem genuine_empty : empty.Genuine where
  rooted _ _ h := by cases h
  named h := by cases h
  aimed {loc target} h := by cases loc <;> cases h

namespace Genuine

theorem put (h : fs.Genuine) {node : Node} (hdir : fs.isDirectoryAt above = true) (hname : FileName name)
    (hnew : node = .directory ∨ fs.isDirectoryAt (name :: above) = false)
    (hnode : ∀ target, node = .link target → '\x00' ∉ target.toList) : (fs.put (name :: above) node).Genuine where
  rooted := h.rooted.put hdir hnew
  named {name' above'} hsome := by
    rw [node?_put (by simp)] at hsome
    split at hsome
    · next heq =>
      cases heq
      exact hname
    · exact h.named hsome
  aimed {loc target} hlink := by
    rw [node?_put (by simp)] at hlink
    split at hlink
    · exact hnode target (Option.some.inj hlink)
    · exact h.aimed hlink

theorem removeTree (h : fs.Genuine) (loc : Location) : (fs.removeTree loc).Genuine where
  rooted := h.rooted.removeTree loc
  named {name' above'} hsome := by
    rw [node?_removeTree] at hsome
    split at hsome
    · cases hsome
    · exact h.named hsome
  aimed {loc' target} hlink := by
    cases loc' with
    | nil => cases hlink
    | cons name' above' =>
      rw [node?_removeTree] at hlink
      split at hlink
      · cases hlink
      · exact h.aimed hlink

end Genuine

/-! ## Where entries are made -/

/-- A name as it can stand in a path that is looked up. -/
structure Spelled (name : String) : Prop where
  slash : '/' ∉ name.toList
  nonempty : name ≠ ""
  zero : '\x00' ∉ name.toList

theorem Spelled.fileName (h : Spelled name) (hname : EntryName name) : FileName name :=
  ⟨Path.isStep_name.mpr ⟨h.slash, h.nonempty, hname.dot, hname.up⟩, h.zero, hname.length⟩

theorem spelled_of_mem_steps {text : String} (htext : '\x00' ∉ text.toList) : ∀ name ∈ steps text, Spelled name := by
  intro name hname
  obtain ⟨hslash, hne⟩ := mem_steps hname
  refine ⟨hslash, hne, ?_⟩
  obtain ⟨last, hlast, hpoint⟩ := steps_eq text
  rw [hlast] at hname
  obtain hname | hname := List.mem_append.mp hname
  · obtain ⟨piece, hpiece, rfl⟩ := List.mem_map.mp hname
    intro hzero
    exact htext (Text.mem_of_mem_split (List.mem_filter.mp hpiece).1 (by simpa using hzero))
  · obtain rfl | rfl := hpoint
    · cases hname
    · rw [List.mem_singleton.mp hname]
      decide

/-- A look-up ends at something, or at a free name in a directory. -/
inductive Lands (fs : FileSystem) : Location → Prop where
  | there {loc : Location} (h : (fs.node? loc).isSome) : Lands fs loc
  | free {name : String} {above : Location} (hdir : fs.isDirectoryAt above = true) (hname : FileName name) :
      Lands fs (name :: above)

theorem isSome_of_isDirectoryAt (h : fs.isDirectoryAt loc = true) : (fs.node? loc).isSome := by
  rw [isDirectoryAt_iff.mp h]
  rfl

theorem isSome_start (h : fs.isDirectoryAt loc = true) (text : String) : (fs.node? (start loc text)).isSome := by
  unfold start
  split
  · rfl
  · exact isSome_of_isDirectoryAt h

theorem lands_of_walkNames (hfs : fs.Genuine) {follow : Bool}
    {jump : Location → String → List String → Except Fault Location}
    (hjump : ∀ {loc target rest}, fs.isDirectoryAt loc = true → '\x00' ∉ target.toList →
      (∀ name ∈ rest, Spelled name) → jump loc target rest = .ok found → fs.Lands found)
    {names : List String} (hloc : names = [] → (fs.node? loc).isSome) (hnames : ∀ name ∈ names, Spelled name)
    (h : fs.walkNames follow jump loc names = .ok found) : fs.Lands found := by
  induction names generalizing loc with
  | nil =>
    cases h
    exact .there (hloc rfl)
  | cons name rest ih =>
    obtain ⟨hdir, hgoes⟩ := walkNames_cons_eq_ok.mp h
    have hrest : ∀ name ∈ rest, Spelled name := fun name hname => hnames name (List.mem_cons_of_mem _ hname)
    cases hgoes with
    | here _ hgoes => exact ih (fun _ => isSome_of_isDirectoryAt hdir) hrest hgoes
    | up _ hgoes =>
      refine ih (fun _ => ?_) hrest hgoes
      cases loc with
      | nil => rfl
      | cons last above => exact isSome_of_isDirectoryAt (hfs.rooted last above (isSome_of_isDirectoryAt hdir))
    | enters _ hnode _ hgoes => exact ih (fun _ => by simp [hnode]) hrest hgoes
    | follows _ hnode _ hgoes => exact hjump hdir (hfs.aimed hnode) hrest hgoes
    | stops hname _ hfound _ =>
      rw [hfound]
      exact .free hdir ((hnames name List.mem_cons_self).fileName hname)

theorem lands_of_walk (hfs : fs.Genuine) {follow : Bool} {links : Nat} {names : List String}
    (hloc : names = [] → (fs.node? loc).isSome) (hnames : ∀ name ∈ names, Spelled name)
    (h : fs.walk follow links loc names = .ok found) : fs.Lands found := by
  induction links generalizing loc names with
  | zero => exact lands_of_walkNames hfs (fun _ _ _ hjump => by cases hjump) hloc hnames h
  | succ links ih =>
    refine lands_of_walkNames hfs (fun hdir htarget hrest hjump => ?_) hloc hnames h
    refine ih (fun _ => isSome_start hdir _) (fun name hname => ?_) hjump
    obtain hname | hname := List.mem_append.mp hname
    · exact spelled_of_mem_steps htarget name hname
    · exact hrest name hname

theorem lands_of_locate (hfs : fs.Genuine) {follow : Bool} (h : fs.locate follow path = .ok found) :
    fs.Lands found := by
  obtain ⟨htext, hwalk⟩ := locate_eq_ok_iff.mp h
  obtain ⟨hzero, hne, -⟩ := checkedText_eq_ok_iff.mp htext
  exact lands_of_walk hfs (fun hnone => absurd hnone (steps_ne_nil hne)) (spelled_of_mem_steps hzero) hwalk

/-- What is no directory has a name, and lies in a directory. -/
theorem Lands.entry (h : fs.Lands loc) (hfs : fs.Genuine) (hloc : fs.isDirectoryAt loc = false) :
    ∃ name above, loc = name :: above ∧ fs.isDirectoryAt above = true ∧ FileName name := by
  cases h with
  | free hdir hname => exact ⟨_, _, rfl, hdir, hname⟩
  | there hsome =>
    cases loc with
    | nil => cases hloc
    | cons name above => exact ⟨name, above, rfl, hfs.rooted name above hsome, hfs.named hsome⟩

theorem Vacancy.fileName (h : fs.Vacancy path name above) : FileName name := by
  obtain ⟨hzero, -, -⟩ := checkedText_eq_ok_iff.mp h.text
  obtain ⟨last, hlast, -⟩ := steps_eq path.text
  have hmem : name ∈ steps path.text := by
    rw [hlast]
    exact List.mem_append_left _ h.last
  exact (spelled_of_mem_steps hzero name hmem).fileName h.entryName

/-! ## Changes -/

namespace Genuine

theorem writeBytes (h : fs.Genuine) {content : ByteArray} (hw : fs.writeBytes path content = .ok fs') :
    fs'.Genuine := by
  obtain ⟨loc, hloc, hfile, rfl⟩ := writeBytes_eq_ok hw
  obtain ⟨name, above, rfl, hdir, hname⟩ := (lands_of_locate h hloc).entry h hfile
  exact h.put hdir hname (.inr hfile) nofun

/-- A directory or a link is made under a free name. -/
theorem make (h : fs.Genuine) {node : Node} (hnode : ∀ target, node = .link target → '\x00' ∉ target.toList)
    (hmake : (fs.vacancy path).map (fs.put · node) = .ok fs') : fs'.Genuine := by
  obtain ⟨name, above, hfree, rfl⟩ := make_eq_ok hmake
  refine h.put hfree.directory hfree.fileName (.inr ?_) hnode
  rw [isDirectoryAt, hfree.free]

theorem makeLink (h : fs.Genuine) {target : String} (htarget : '\x00' ∉ target.toList)
    (hmake : fs.makeLink path target = .ok fs') : fs'.Genuine := by
  refine h.make (fun target' heq => ?_) hmake
  cases heq
  exact htarget

theorem ensureDirectory (h : fs.Genuine) (he : fs.ensureDirectory path = .ok fs') : fs'.Genuine := by
  obtain rfl | ⟨name, above, hfree, rfl⟩ := ensureDirectory_eq_ok he
  · exact h
  · exact h.put hfree.directory hfree.fileName (.inl rfl) (by simp)

theorem ensureDirectories (h : fs.Genuine) (dirs : List Path) : (fs.ensureDirectories dirs).1.Genuine :=
  ensureDirectories_induction (fun _ _ hfs hok => hfs.ensureDirectory hok) h

theorem removeFile (h : fs.Genuine) (hr : fs.removeFile path = .ok fs') : fs'.Genuine := by
  obtain ⟨loc, node, -, -, -, rfl⟩ := removeFile_eq_ok hr
  exact h.removeTree loc

theorem remove (h : fs.Genuine) (hr : fs.remove path = .ok fs') : fs'.Genuine := by
  obtain ⟨loc, node, -, -, rfl⟩ := remove_eq_ok hr
  exact h.removeTree loc

/-! ### Setting up -/

theorem orSame (h : fs.Genuine) {changed : Except Fault FileSystem}
    (hchanged : ∀ fs', changed = .ok fs' → fs'.Genuine) : (fs.orSame changed).Genuine := by
  cases changed with
  | ok fs' => exact hchanged fs' rfl
  | error fault => exact h

theorem placeDirectory (h : fs.Genuine) (path : Path) : (fs.placeDirectory path).Genuine :=
  h.ensureDirectories path.ancestors

theorem placeFile (h : fs.Genuine) (path : Path) (content : ByteArray) : (fs.placeFile path content).Genuine :=
  have hdir := h.placeDirectory path.directory
  hdir.orSame fun _ hw => hdir.writeBytes hw

theorem placeLink (h : fs.Genuine) (path : Path) {target : String} (htarget : '\x00' ∉ target.toList) :
    (fs.placeLink path target).Genuine :=
  have hdir := h.placeDirectory path.directory
  hdir.orSame fun _ hmake => hdir.makeLink htarget hmake

theorem clear (h : fs.Genuine) (path : Path) : (fs.clear path).Genuine := h.orSame fun _ hr => h.remove hr

theorem of_nodes (h : fs.Genuine) (hnodes : fs'.nodes = fs.nodes) : fs'.Genuine := by
  have hsame : ∀ loc, fs'.node? loc = fs.node? loc := by
    intro loc
    cases loc with
    | nil => rfl
    | cons => simp only [node?, hnodes]
  refine ⟨⟨fun name above hsome => ?_, fun hsome => ?_⟩, fun hlink => ?_⟩
  · rw [isDirectoryAt, hsame]
    exact h.rooted name above (by rwa [← hsame])
  · rw [hsame] at hsome
    exact h.named hsome
  · rw [hsame] at hlink
    exact h.aimed hlink

theorem enter (h : fs.Genuine) (path : Path) : (fs.enter path).Genuine := by
  have hdir := h.placeDirectory path
  unfold FileSystem.enter
  dsimp only
  split
  · exact hdir.of_nodes rfl
  · exact hdir

end Genuine

theorem genuine_foldl {α : Type} {step : FileSystem → α → FileSystem} (items : List α)
    (hstep : ∀ fs, ∀ item ∈ items, fs.Genuine → (step fs item).Genuine) (h : fs.Genuine) :
    (items.foldl step fs).Genuine := by
  induction items generalizing fs with
  | nil => exact h
  | cons item items ih =>
    have hitem := hstep fs item List.mem_cons_self h
    exact ih (fun fs item hmem => hstep fs item (List.mem_cons_of_mem _ hmem)) hitem

/-- A tree that is set up is well formed if its links have targets that can be looked up. -/
theorem genuine_ofSnapshot {v : Json.Value} (h : ofSnapshot? v = some fs)
    (hlinks : ∀ links, snapshotTexts v "links" = some links → ∀ link ∈ links, '\x00' ∉ link.2.toList) :
    fs.Genuine := by
  simp only [ofSnapshot?, Option.bind_eq_bind, Option.bind_eq_some_iff] at h
  obtain ⟨files, -, directories, -, links, htexts, h⟩ := h
  have hfiles := genuine_foldl files (fun fs file _ hfs => hfs.placeFile ⟨file.1⟩ file.2.toUTF8) genuine_empty
  have hdirectories := genuine_foldl directories (fun fs path _ hfs => hfs.placeDirectory ⟨path⟩) hfiles
  have hlinked := genuine_foldl links
    (fun fs link hmem hfs => hfs.placeLink ⟨link.1⟩ (hlinks links htexts link hmem)) hdirectories
  split at h
  · cases h
    exact hlinked
  · cases h
    exact hlinked.enter _
  · cases h

end FileSystem

/-! ## Loaders -/

namespace Loader

/-- What an action must not do: spoil the tree. -/
def KeepsGenuine (l l' : Loader) : Prop := l.files.Genuine → l'.files.Genuine

namespace KeepsGenuine

instance : IsPreorder Loader KeepsGenuine where
  refl _ := id
  trans _ _ _ h h' := h' ∘ h

/-- Most actions do not touch the file system at all. -/
theorem of_eq {l l' : Loader} (hf : l'.files = l.files) : KeepsGenuine l l' := fun h => hf ▸ h

theorem report (event : Event) : Follows KeepsGenuine (Loader.report event) := fun _ => of_eq rfl

/-- A look-up in the code cache removes at most a file. -/
theorem lookup {l : Loader} {cache : CodeCache} (path : Path) (digest : String) :
    KeepsGenuine l { l with files := CodeCache.afterLookup l.files (cache.lookup l.files path digest) } := by
  intro h
  have hcases := cache.afterLookup_cases l.files path digest
  generalize CodeCache.afterLookup l.files (cache.lookup l.files path digest) = after at hcases ⊢
  obtain rfl | hremove := hcases
  · exact h
  · exact h.removeFile hremove

/-- A program is stored in directories that are made for it. -/
theorem store {l : Loader} {cache : CodeCache} (path : Path) (source : String) (p : Source.Program) :
    KeepsGenuine l { l with files := (cache.store l.files path (Digest.ofText source) p).1 } := by
  intro h
  have hmade : (l.files.makeDirectories cache.dir).1.Genuine := h.placeDirectory cache.dir
  show (cache.store l.files path (Digest.ofText source) p).1.Genuine
  obtain heq | hwrite := cache.store_cases l.files path (Digest.ofText source) p
  · rw [heq]
    exact hmade
  · exact hmade.writeBytes hwrite

theorem reading : Reading KeepsGenuine where
  toIsPreorder := inferInstance
  report event _ := report event
  remember _ _ _ := of_eq rfl
  lookup _ := lookup
  store _ := store

theorem respects : Respects KeepsGenuine where
  toIsPreorder := inferInstance
  report := report
  addEntry _ := fun _ => of_eq rfl
  updateEntry _ _ _ := fun _ => of_eq rfl
  updateCache _ := fun _ => of_eq rfl
  builtin name := by
    intro l
    unfold Loader.builtin
    rw [run_bind, run_get, andThen_ok]
    cases l.cache.builtins.get? name <;> exact of_eq rfl
  package _ := fun _ => of_eq rfl
  source := reading.source
  program := reading.program

theorem discover (request : String) (parent : Option EntryId) :
    Follows KeepsGenuine (Loader.discover request parent) := by
  intro l h
  rw [run_discover]
  exact respects.load request parent false (l.withParsing true) h

end KeepsGenuine

/-- What leaves the tree to the loader, or puts a genuine one in its place. -/
def Housing (_ : Loader) : Operation → Prop
  | .changeFiles fs => fs.Genuine
  | _ => True

theorem genuine_after {l : Loader} {op : Operation} (h : l.files.Genuine) (hop : l.Housing op) :
    (l.after op).files.Genuine := by
  cases op with
  | load request parent isMain => exact KeepsGenuine.respects.load request parent isMain l h
  | discover request parent => exact KeepsGenuine.discover request parent l h
  | resolve request parent =>
    rw [Loader.after, run_resolve]
    exact h
  | changeFiles fs => exact hop
  | _ => exact h

/-- A loader never spoils the tree that it works in. -/
theorem genuine_of_reachable {l : Loader} (h : Reachable (fun l => l.files.Genuine) Housing l) : l.files.Genuine :=
  h.invariant (fun _ hstart => hstart) fun _ _ => genuine_after

end Loader

end ModGraph
