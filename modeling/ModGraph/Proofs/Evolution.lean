import ModGraph.Proofs.Follows

/-!
# How a loader evolves

What holds of every load, without any assumption about the loader: it keeps how it resolves, reads and
compiles; its graph only grows, and its entries keep their keys and packages and stay loaded; a builtin
module keeps its entry; and the journal is only added to. Without a code cache the file system stays
the same too. Reading sources and programs leaves modules alone altogether (`Loader.Quiet`), and a task
does not move the module that it runs for (`Loader.CompilesFile.stays`).
-/

namespace ModGraph

structure Graph.Develops (g g' : Graph) : Prop where
  size : g.size ≤ g'.size
  entry : ∀ {id}, id < g.size → (g.entry id).Develops (g'.entry id)

namespace Entry.Develops

theorem trans {e e' e'' : Entry} (h : e.Develops e') (h' : e'.Develops e'') : e.Develops e'' :=
  ⟨h'.key.trans h.key, h'.package.trans h.package, fun hl => h'.loaded (h.loaded hl)⟩

end Entry.Develops

/-- An entry keeps its file, its package and its search paths. -/
structure Entry.Stays (e e' : Entry) : Prop where
  filename : e'.module.filename = e.module.filename
  package : e'.package = e.package
  paths : e'.module.paths = e.module.paths

namespace Entry.Stays

theorem refl (e : Entry) : e.Stays e := ⟨rfl, rfl, rfl⟩

theorem trans {e e' e'' : Entry} (h : e.Stays e') (h' : e'.Stays e'') : e.Stays e'' :=
  ⟨h'.filename.trans h.filename, h'.package.trans h.package, h'.paths.trans h.paths⟩

theorem of_recast {e e' : Entry} (h : e.Recast e') : e.Stays e' := by
  obtain ⟨exports, hmodule⟩ := h.module
  exact ⟨by rw [hmodule], h.package, by rw [hmodule]⟩

end Entry.Stays

namespace Graph

theorem entry_add (g : Graph) (e : Entry) (id : EntryId) :
    (g.add e).1.entry id = if id = g.size then e else g.entry id := by
  split
  · next h => exact h ▸ entry_add_self g e
  · next h =>
    simp only [size] at h
    simp [add, entry, Array.getElem?_push, h]

theorem entry_update (g : Graph) (id : EntryId) (f : Entry → Entry) (id' : EntryId) :
    (g.update id f).entry id' = if id = id' ∧ id < g.size then f (g.entry id') else g.entry id' := by
  by_cases h : id = id'
  · subst h
    by_cases hlt : id < g.size
    · simp [hlt]
    · simp only [size] at hlt
      simp [update, entry, size, hlt]
  · simp [entry_update_of_ne g f h, h]

namespace Develops

theorem refl (g : Graph) : g.Develops g := ⟨Nat.le_refl _, fun _ => .refl _⟩

theorem trans {g g' g'' : Graph} (h : g.Develops g') (h' : g'.Develops g'') : g.Develops g'' :=
  ⟨Nat.le_trans h.size h'.size,
    fun hid => (h.entry hid).trans (h'.entry (Nat.lt_of_lt_of_le hid h.size))⟩

theorem add (g : Graph) (e : Entry) : g.Develops (g.add e).1 := by
  refine ⟨by simp, fun {id} hid => ?_⟩
  rw [entry_add_of_lt g e hid]
  exact .refl _

theorem update (g : Graph) (id : EntryId) {f : Entry → Entry} (hf : ∀ e : Entry, e.Develops (f e)) :
    g.Develops (g.update id f) := by
  refine ⟨by simp, fun {id'} _ => ?_⟩
  rw [entry_update]
  split
  · exact hf _
  · exact .refl _

end Develops
end Graph

namespace Loader

/-- What no load takes from a loader. -/
structure Evolves (l l' : Loader) : Prop where
  resolver : l'.resolver = l.resolver
  reader : l'.reader = l.reader
  manifests : l'.manifests = l.manifests
  codeCache : l'.codeCache? = l.codeCache?
  compilers : l'.compilers = l.compilers
  builtinExports : l'.builtinExports = l.builtinExports
  files : l.codeCache? = none → l'.files = l.files
  defaults : l'.packages.defaults = l.packages.defaults
  cache : l.cache.Develops l'.cache
  graph : l.graph.Develops l'.graph
  journal : l.journal <:+ l'.journal

namespace Evolves

theorem refl (l : Loader) : l.Evolves l :=
  ⟨rfl, rfl, rfl, rfl, rfl, rfl, fun _ => rfl, rfl, .refl _, .refl _, List.suffix_rfl⟩

theorem trans {l l' l'' : Loader} (h : l.Evolves l') (h' : l'.Evolves l'') : l.Evolves l'' where
  resolver := h'.resolver.trans h.resolver
  reader := h'.reader.trans h.reader
  manifests := h'.manifests.trans h.manifests
  codeCache := h'.codeCache.trans h.codeCache
  compilers := h'.compilers.trans h.compilers
  builtinExports := h'.builtinExports.trans h.builtinExports
  files hc := (h'.files (h.codeCache.trans hc)).trans (h.files hc)
  defaults := h'.defaults.trans h.defaults
  cache := h.cache.trans h'.cache
  graph := h.graph.trans h'.graph
  journal := h.journal.trans h'.journal

instance : IsPreorder Loader Evolves where
  refl := refl
  trans _ _ _ := trans

end Evolves

/-! ## Reading files -/

/-- What it takes to read a file and its program goes along a relation. -/
structure Reading (R : Loader → Loader → Prop) : Prop extends IsPreorder Loader R where
  report : ∀ event, event.compiledKey? = none → Follows R (report event)
  remember : ∀ l sources programs, R l { l with sources := sources, programs := programs }
  /-- A look-up in the code cache may remove a file. -/
  lookup : ∀ {l cache}, l.codeCache? = some cache → ∀ path digest,
    R l { l with files := CodeCache.afterLookup l.files (cache.lookup l.files path digest) }
  store : ∀ {l cache}, l.codeCache? = some cache → ∀ path source p,
    R l { l with files := (cache.store l.files path (Digest.ofText source) p).1 }

namespace Reading

variable {R : Loader → Loader → Prop} (h : Reading R)
include h

theorem source (file : Path) : Follows R (sourceOf file) := by
  have := h.toIsPreorder
  refine Follows.get.bind fun l => ?_
  split
  · exact .pure _
  · refine (h.report _ rfl).bind fun _ => ?_
    split
    · exact .throw _
    · exact .bind (fun l => h.remember l _ l.programs) fun _ => .pure _

theorem storedProgram (path : Path) (digest : String) : Follows R (storedProgram? path digest) := by
  have := h.toIsPreorder
  intro l
  unfold storedProgram?
  rw [run_bind, run_get, andThen_ok]
  cases hc : l.codeCache? with
  | none => exact refl l
  | some codeCache =>
    have hlookup := h.lookup hc path digest
    dsimp only
    rw [run_bind, run_get, andThen_ok, run_bind, run_modify, andThen_ok]
    generalize codeCache.lookup l.files path digest = found at hlookup ⊢
    cases found with
    | absent => exact hlookup
    | hit p => exact IsTrans.trans _ _ _ hlookup (h.report (.usesStored path) rfl _)
    | spoilt blob reason => exact IsTrans.trans _ _ _ hlookup (h.report (.discardsStored blob reason) rfl _)

theorem storeProgram (path : Path) (source : String) (p : Source.Program) :
    Follows R (Loader.storeProgram path (Digest.ofText source) p) := by
  have := h.toIsPreorder
  intro l
  unfold Loader.storeProgram
  rw [run_bind, run_get, andThen_ok]
  cases hc : l.codeCache? with
  | none => exact refl l
  | some codeCache =>
    have hstore := h.store hc path source p
    dsimp only
    rw [run_bind, run_get, andThen_ok]
    generalize codeCache.store l.files path (Digest.ofText source) p = stored at hstore ⊢
    obtain ⟨files, outcome⟩ := stored
    cases outcome with
    | ok => exact hstore
    | error fault => exact IsTrans.trans _ _ _ hstore (h.report (.cannotStore path fault) rfl _)

theorem program (file : Path) : Follows R (programOf file) := by
  have := h.toIsPreorder
  refine Follows.get.bind fun l => ?_
  split
  · exact .pure _
  · refine (h.source file).bind fun text => .bind ?_ fun p =>
      .bind (fun l => h.remember l l.sources _) fun _ => .pure _
    refine (h.storedProgram _ _).bind fun found => ?_
    cases found with
    | some p => exact .pure _
    | none =>
      dsimp only
      split
      · exact .throw _
      · exact (h.storeProgram _ _ _).bind fun _ => .pure _

end Reading

/-! ## Packages, sources and programs -/

theorem defaults_contextForFile (cs : PackageContexts) (read : Path → Manifest) (file : Path) :
    (cs.contextForFile read file).contexts.defaults = cs.defaults := by
  unfold PackageContexts.contextForFile
  split
  · next dir _ =>
    unfold PackageContexts.contextFor
    generalize cs.inspect read dir.ancestors = walk
    obtain ⟨walked, found⟩ := walk
    cases found <;> rfl
  · rfl

namespace Evolves

theorem report (event : Event) : Follows Evolves (Loader.report event) := fun l =>
  { refl l with journal := List.suffix_cons _ _ }

theorem package (file : Path) : Follows Evolves (packageOfFile file) := by
  intro l
  let answer := l.packages.contextForFile (l.manifests l.files) file
  have hrun : (l.run (packageOfFile file)).2 = { l with
      packages := answer.contexts
      journal := (walkEvents answer).reverse ++ l.journal } := rfl
  rw [hrun]
  exact { refl l with
    defaults := defaults_contextForFile _ _ _
    journal := List.suffix_append _ _ }

/-- With a code cache files may change. -/
theorem withFiles {l : Loader} {cache : CodeCache} (hc : l.codeCache? = some cache) (fs : FileSystem) :
    Evolves l { l with files := fs } :=
  { refl l with files := fun h => by simp [hc] at h }

theorem reading : Reading Evolves where
  toIsPreorder := inferInstance
  report event _ := report event
  remember l _ _ := { refl l with }
  lookup hc _ _ := withFiles hc _
  store hc _ _ _ := withFiles hc _

theorem builtin (name : String) : Follows Evolves (Loader.builtin name) := by
  intro l
  unfold Loader.builtin
  rw [run_bind, run_get, andThen_ok]
  cases hb : l.cache.builtins.get? name with
  | some id => exact refl l
  | none =>
    refine { refl l with graph := .add l.graph _, cache := ⟨fun {name' id} h => ?_, rfl⟩ }
    -- the new binding hides none, as the name was free
    have hne : name ≠ name' := by rintro rfl; simp [hb] at h
    exact (Table.get?_insert_of_ne _ _ hne).trans h

theorem respects : Respects Evolves where
  toIsPreorder := inferInstance
  report := report
  addEntry e := fun l => { refl l with graph := .add l.graph e }
  updateEntry id _ hf := fun l => { refl l with graph := .update l.graph id hf }
  updateCache hf := fun l => { refl l with cache := hf l.cache }
  builtin := builtin
  package := package
  source := reading.source
  program := reading.program

end Evolves

/-! ## Reading -/

/-- The keys that were compiled, the latest first. -/
def compiled (l : Loader) : List String := l.journal.filterMap Event.compiledKey?

/-- Nothing happens to modules. -/
structure Quiet (l l' : Loader) : Prop where
  cache : l'.cache = l.cache
  graph : l'.graph = l.graph
  compiled : l'.compiled = l.compiled

namespace Quiet

instance : IsPreorder Loader Quiet where
  refl _ := ⟨rfl, rfl, rfl⟩
  trans _ _ _ h h' :=
    ⟨h'.cache.trans h.cache, h'.graph.trans h.graph, h'.compiled.trans h.compiled⟩

theorem report {event : Event} (h : event.compiledKey? = none) : Follows Quiet (Loader.report event) :=
  fun _ => ⟨rfl, rfl, List.filterMap_cons_none h⟩

theorem withFiles (l : Loader) (fs : FileSystem) : Quiet l { l with files := fs } := ⟨rfl, rfl, rfl⟩

theorem reading : Reading Quiet where
  toIsPreorder := inferInstance
  report _ h := report h
  remember _ _ _ := ⟨rfl, rfl, rfl⟩
  lookup _ _ _ := withFiles _ _
  store _ _ _ _ := withFiles _ _

end Quiet

/-! ## Tasks -/

/-- A task leaves its entry where it is, as long as nested loads do; these may rely on what holds before every
instruction. -/
theorem CompilesFile.stays {P : Loader → Prop} {id : EntryId} {file : Path}
    (h : CompilesFile id file fun l l' => P l → P l') :
    Instructs id file fun l l' => P l → P l' ∧ (l.graph.entry id).Stays (l'.graph.entry id) where
  refl _ hP := ⟨hP, .refl _⟩
  trans _ _ _ hl hl' hP := ⟨(hl' (hl hP).1).1, (hl hP).2.trans (hl' (hl hP).1).2⟩
  report event he l hP := ⟨h.report event he l hP, .refl _⟩
  updateEntry hf l hP := by
    refine ⟨h.updateEntry (fun e => (hf e).retains) l hP, ?_⟩
    rw [run_updateEntry]
    dsimp only
    rw [Graph.entry_update]
    split
    · exact .of_recast (hf _)
    · exact .refl _
  source l hP := ⟨h.source l hP, by rw [(Quiet.reading.source file l).graph]; exact .refl _⟩
  program l hP := ⟨h.program l hP, by rw [(Quiet.reading.program file l).graph]; exact .refl _⟩

end Loader
end ModGraph
