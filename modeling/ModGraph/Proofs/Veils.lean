import ModGraph.Proofs.Progress

/-!
# What exposure leaves alone

Whether a package exposes its declarative modules to legacy ones decides on partitions, on parents and on the main
module that legacy modules see. Everything else that a loader knows is kept by `Loader.veiled`, which also forgets
what happened. What the steps of a load do to it can be said without knowing the rest (`Loader.veiled_marked`,
`Loader.veiled_concluded` and so on), and what reads files does the same whatever is exposed
(`Loader.Unaffected.programOf`).
-/

namespace ModGraph

open Loader (Compilation Job Target)

/-! ## Packages -/

/-- Options, whatever they say about exposure. -/
def PackageOptions.veiled (o : PackageOptions) : PackageOptions := { o with cjs := { o.cjs with cache := false } }

/-- A package, whatever it says about exposure. -/
def PackageContext.veiled (c : PackageContext) : PackageContext := { c with options := c.options.veiled }

/-- A manifest, whatever it says about exposure. -/
def Manifest.veiled : Manifest → Manifest
  | .options o => .options o.veiled
  | m => m

theorem Manifest.options?_veiled (m : Manifest) : m.veiled.options? = m.options?.map PackageOptions.veiled := by
  cases m <;> rfl

/-- The end of a walk, whatever a manifest says about exposure. -/
def Found.veiled : Found → Found
  | .manifest dir options => .manifest dir options.veiled
  | found => found

namespace PackageContexts

/-- Contexts, whatever they say about exposure. -/
def veiled (cs : PackageContexts) : PackageContexts :=
  { cs with defaults := cs.defaults.veiled, made := cs.made.map PackageContext.veiled }

variable (cs : PackageContexts) (read : Path → Manifest)

theorem context_veiled (id : ContextId) : cs.veiled.context id = (cs.context id).veiled := by
  cases id with
  | none => rfl
  | some n =>
    simp only [context, veiled, Option.bind_some, List.getElem?_map]
    cases cs.made[n]? <;> rfl

/-- A walk up ends where it did. -/
theorem inspect_veiled (dirs : List Path) : cs.veiled.inspect (fun dir => (read dir).veiled) dirs =
    ((cs.inspect read dirs).1.map fun w => (w.1, w.2.veiled), (cs.inspect read dirs).2.veiled) := by
  induction dirs with
  | nil => rfl
  | cons dir above ih =>
    have hremembered : cs.veiled.remembered? dir = cs.remembered? dir := rfl
    simp only [inspect, hremembered, Manifest.options?_veiled]
    cases cs.remembered? dir with
    | some id => rfl
    | none =>
      cases (read dir).options? with
      | some o => rfl
      | none => simp [ih]

theorem contextFor_veiled (dir : Path) :
    (cs.veiled.contextFor (fun dir => (read dir).veiled) dir).contexts = (cs.contextFor read dir).contexts.veiled ∧
      (cs.veiled.contextFor (fun dir => (read dir).veiled) dir).id = (cs.contextFor read dir).id := by
  unfold contextFor
  rw [inspect_veiled]
  obtain ⟨walked, found⟩ := cs.inspect read dir.ancestors
  have hwalked : (walked.map fun w => (w.1, w.2.veiled)).map Prod.fst = walked.map Prod.fst := by
    rw [List.map_map]
    rfl
  cases found with
  | remembered id =>
    dsimp only [Found.veiled]
    rw [hwalked]
    exact ⟨rfl, rfl⟩
  | nothing =>
    dsimp only [Found.veiled]
    rw [hwalked]
    exact ⟨rfl, rfl⟩
  | manifest dir options =>
    dsimp only [Found.veiled]
    rw [hwalked]
    simp [veiled, remember, make, PackageContext.veiled]

theorem contextForFile_veiled (file : Path) :
    (cs.veiled.contextForFile (fun dir => (read dir).veiled) file).contexts
        = (cs.contextForFile read file).contexts.veiled ∧
      (cs.veiled.contextForFile (fun dir => (read dir).veiled) file).id = (cs.contextForFile read file).id := by
  unfold contextForFile
  cases file.parent with
  | none => exact ⟨rfl, rfl⟩
  | some dir => exact contextFor_veiled cs read dir

end PackageContexts

/-! ## The graph -/

/-- An entry, whatever its package says about exposure, and whatever its parent is. -/
def Entry.veiled (e : Entry) : Entry := { e with package := e.package.veiled, parent := none }

/-- A graph, whatever packages say about exposure, and whatever parents are. -/
def Graph.veiled (g : Graph) : Graph := ⟨g.entries.map Entry.veiled⟩

namespace Graph

variable (g : Graph)

theorem entry_veiled (id : EntryId) : g.veiled.entry id = (g.entry id).veiled := by
  simp only [entry, veiled, Array.getElem?_map]
  cases g.entries[id]? <;> rfl

theorem size_veiled : g.veiled.size = g.size := Array.size_map

theorem veiled_add (e : Entry) : (g.add e).1.veiled = (g.veiled.add e.veiled).1 := by
  simp [add, veiled]

theorem veiled_update (id : EntryId) {f k : Entry → Entry} (hf : ∀ e, (f e).veiled = k e.veiled) :
    (g.update id f).veiled = g.veiled.update id k := by
  unfold update veiled
  congr 1
  refine Array.ext (by simp) fun i hi hi' => ?_
  simp only [Array.getElem_map, Array.getElem_modify]
  split
  · exact hf _
  · rfl

/-- Only what is veiled is written. -/
theorem veiled_update_of_eq (id : EntryId) {f : Entry → Entry} (hf : ∀ e, (f e).veiled = e.veiled) :
    (g.update id f).veiled = g.veiled := by
  unfold update veiled
  congr 1
  refine Array.ext (by simp) fun i hi hi' => ?_
  simp only [Array.getElem_map, Array.getElem_modify]
  split
  · exact hf _
  · rfl

end Graph

/-! ## The cache -/

/-- Whether a partition is committed, and no more. -/
def Partition.veiled (p : Partition) : Partition := if p.isCommitted then .legacy else .discovery

theorem Partition.veiled_of_ne {p : Partition} (h : p ≠ .discovery) : p.veiled = .legacy := by
  cases p <;> first | rfl | exact absurd rfl h

theorem Partition.veiled_eq_discovery {p : Partition} : p.veiled = .discovery ↔ p = .discovery := by
  cases p <;> decide

namespace Cache

variable (c : Cache)

/-- A cache without its slots and without the main module that legacy modules see. -/
def veiled : Cache :=
  { c with legacy := .empty, declarative := .empty, discovery := .empty, legacyMain? := none }

/-- The slot of a key, and whether it is committed. -/
def place? (key : String) : Option (Partition × Slot) := (c.slot? key).map (Prod.map Partition.veiled id)

@[simp] theorem veiled_withSlots (p : Partition) (slots : Table String Slot) :
    (c.withSlots p slots).veiled = c.veiled := by
  cases p <;> rfl

@[simp] theorem veiled_set (p : Partition) (key : String) (s : Slot) : (c.set p key s).veiled = c.veiled :=
  veiled_withSlots c p _

@[simp] theorem veiled_delete (p : Partition) (key : String) : (c.delete p key).veiled = c.veiled :=
  veiled_withSlots c p _

@[simp] theorem veiled_commit (key : String) (p : Partition) : (c.commit key p).1.veiled = c.veiled := by
  unfold commit
  split
  · rfl
  · dsimp only
    split
    · exact veiled_delete c _ key
    · exact (veiled_set _ p key _).trans (veiled_delete c _ key)

end Cache

/-! ## The loader -/

/-- Who asks, whatever the package says about exposure. -/
def Referrer.veiled (r : Referrer) : Referrer := { r with package := r.package.veiled }

namespace Loader

/-- What a request leads to, whatever the package says about exposure. -/
def Target.veiled (t : Target) : Target := { t with package := t.package.veiled }

/-- A module that is to be compiled, whatever packages say about exposure. -/
def Job.veiled (job : Job) : Job :=
  { job with
    referrer := job.referrer.map Referrer.veiled
    target := job.target.veiled
    partition := job.partition.veiled }

/-- What a loader knows besides its slots, whatever packages say about exposure. -/
def veiled (l : Loader) : Loader :=
  { l with
    manifests := fun fs dir => (l.manifests fs dir).veiled
    packages := l.packages.veiled
    cache := l.cache.veiled
    graph := l.graph.veiled
    journal := [] }

variable (l : Loader) (id : EntryId) (request : String)

theorem packageOf_veiled (file : Path) : l.veiled.packageOf file = (l.packageOf file).veiled := by
  obtain ⟨hcontexts, hid⟩ := l.packages.contextForFile_veiled (l.manifests l.files) file
  change (l.packages.veiled.contextForFile (fun dir => (l.manifests l.files dir).veiled) file).contexts.context
    (l.packages.veiled.contextForFile (fun dir => (l.manifests l.files dir).veiled) file).id = _
  rw [hcontexts, hid]
  exact PackageContexts.context_veiled _ _

theorem veiled_packaged (file : Path) : (l.packaged file).veiled = { l.veiled with
    packages := (l.veiled.packages.contextForFile (l.veiled.manifests l.veiled.files) file).contexts } := by
  have hcontexts := (l.packages.contextForFile_veiled (l.manifests l.files) file).1
  unfold packaged veiled
  dsimp only
  rw [hcontexts]

/-! ### Requests -/

theorem referrer?_veiled (parent : Option EntryId) :
    l.veiled.referrer? parent = (l.referrer? parent).map Referrer.veiled := by
  cases parent with
  | none => rfl
  | some id =>
    have hentry : l.veiled.graph.entry id = (l.graph.entry id).veiled := Graph.entry_veiled _ _
    unfold referrer?
    rw [Option.map_some, hentry]
    rfl

theorem resolution_veiled (r : Resolver) (fs : FileSystem) (specifier : String) (referrer : Option Referrer)
    (isMain : Bool) :
    resolution r fs specifier (referrer.map Referrer.veiled) isMain = resolution r fs specifier referrer isMain := by
  cases referrer with
  | none => rfl
  | some f =>
    have hglobal : ∀ q, globalQuery? r q (some f.veiled) = globalQuery? r q (some f) := fun q => by
      have hsearches : searchesGlobally f.veiled = searchesGlobally f := rfl
      unfold globalQuery?
      rw [Option.filter_some, Option.filter_some, hsearches]
      split <;> rfl
    have hquery : query specifier (some f.veiled) isMain = query specifier (some f) isMain := rfl
    unfold resolution
    rw [Option.map_some, hquery]
    dsimp only
    rw [hglobal]

theorem resolved_veiled (parent : Option EntryId) (isMain : Bool) :
    l.veiled.resolved request parent isMain = l.resolved request parent isMain := by
  unfold resolved
  rw [referrer?_veiled]
  exact resolution_veiled _ _ _ _ _

theorem veiled_linked (referrer : Option Referrer) (child : EntryId) :
    (l.linked referrer request child).veiled = l.veiled.linked referrer request child := by
  cases referrer with
  | none => rfl
  | some r =>
    have hgraph := l.graph.veiled_update r.id (f := (Entry.addChild · request child))
      (k := (Entry.addChild · request child)) fun _ => rfl
    unfold linked veiled
    dsimp only
    rw [hgraph]

theorem linked_congr {r r' : Option Referrer} (h : r'.map Referrer.veiled = r.map Referrer.veiled) (child : EntryId) :
    l.linked r' request child = l.linked r request child := by
  cases r with
  | none => cases r' <;> first | rfl | cases h
  | some r =>
    cases r' with
    | none => cases h
    | some r' =>
      have hveiled : r'.veiled = r.veiled := Option.some.inj h
      have hid : r'.id = r.id := show r'.veiled.id = r.veiled.id by rw [hveiled]
      unfold linked
      dsimp only
      rw [hid]

theorem builtinOf_veiled (name : String) :
    l.veiled.builtinOf name = ((l.builtinOf name).1, (l.builtinOf name).2.veiled) := by
  have hbuiltins : l.veiled.cache.builtins = l.cache.builtins := rfl
  unfold builtinOf
  rw [hbuiltins]
  cases l.cache.builtins.get? name with
  | some id => rfl
  | none =>
    have hsize : l.veiled.graph.size = l.graph.size := Graph.size_veiled _
    have hadd := l.graph.veiled_add (l.builtinEntry name)
    dsimp only
    rw [hsize]
    unfold veiled
    dsimp only
    rw [hadd]
    rfl

theorem veiled_added (e : Entry) : ({ l with graph := (l.graph.add e).1 } : Loader).veiled =
    { l.veiled with graph := (l.veiled.graph.add e.veiled).1 } := by
  have hadd := l.graph.veiled_add e
  unfold veiled
  dsimp only
  rw [hadd]

theorem veiled_newEntry (referrer : Option Referrer) (t : Target) :
    (newEntry referrer t).veiled = newEntry none t.veiled := rfl

/-- Slots may move, and that is all. -/
theorem veiled_classified (key : String) (fixed : Option Format) (unexposed : Bool) :
    (l.classified key fixed unexposed).2.veiled = l.veiled := by
  obtain ⟨events, -, heq⟩ | ⟨id, -, -, heq⟩ := l.loader_classified key fixed unexposed
  · rw [heq]
    rfl
  · rw [heq]
    unfold veiled committed noted
    dsimp only
    rw [Cache.veiled_commit]

/-! ### Compiling -/

theorem veiled_update {f k : Entry → Entry} (hf : ∀ e, (f e).veiled = k e.veiled) :
    ({ l with graph := l.graph.update id f } : Loader).veiled =
      { l.veiled with graph := l.veiled.graph.update id k } := by
  have hgraph := l.graph.veiled_update id hf
  unfold veiled
  dsimp only
  rw [hgraph]

theorem compilation_veiled (filename : Path) : l.veiled.compilation id filename = l.compilation id filename := by
  have hentry : l.veiled.graph.entry id = (l.graph.entry id).veiled := Graph.entry_veiled _ _
  unfold compilation
  rw [hentry]
  rfl

theorem veiled_begun (filename : Path) :
    (l.begun id filename).veiled = { l.veiled.begun id filename with journal := [] } := by
  have hentry : l.veiled.graph.entry id = (l.graph.entry id).veiled := Graph.entry_veiled _ _
  have hupdate := fun (g : Graph) => g.veiled_update id
    (f := fun e => { e with module := { e.module with filename := filename } })
    (k := fun e => { e with module := { e.module with filename := filename } }) fun _ => rfl
  have hpaths := fun (g : Graph) => g.veiled_update id
    (f := fun e => e.setPaths (searchPaths l.resolver e.package e.format filename))
    (k := fun e => e.setPaths (searchPaths l.resolver e.package e.format filename)) fun _ => rfl
  unfold begun
  rw [hentry]
  unfold veiled
  dsimp only
  rw [← hupdate, ← hpaths, apply_ite Graph.veiled]
  rfl

/-- The marks of a compilation. -/
theorem veiled_marked (filename : Path) (c : Compilation) :
    (l.marked id filename c).veiled = l.veiled.marked id filename c := by
  have hentry : l.veiled.graph.entry id = (l.graph.entry id).veiled := Graph.entry_veiled _ _
  have hmark := fun (g : Graph) => g.veiled_update id
    (f := fun e => if c.parsing then { e with parsed := true } else e.setLoaded true)
    (k := fun e => if c.parsing then { e with parsed := true } else e.setLoaded true) fun _ => by
      split <;> rfl
  have hpaths := fun (g : Graph) => g.veiled_update id
    (f := fun e => e.setPaths (searchPaths l.resolver e.package e.format filename))
    (k := fun e => e.setPaths (searchPaths l.resolver e.package e.format filename)) fun _ => rfl
  unfold marked
  rw [hentry]
  unfold veiled
  dsimp only
  rw [hmark, apply_ite Graph.veiled, hpaths]
  rfl

theorem veiled_occupied (job : Job) : (l.occupied job).veiled =
    if job.isMain then
      { l.veiled with
        cache := { l.veiled.cache with main? := some job.id }
        graph := l.veiled.graph.update job.id fun e => { e with module := { e.module with id := "." } } }
    else l.veiled := by
  have hgraph := l.graph.veiled_update job.id (f := fun e => { e with module := { e.module with id := "." } })
    (k := fun e => { e with module := { e.module with id := "." } }) fun _ => rfl
  have hset := l.cache.veiled_set job.partition job.target.key (.loading job.id)
  unfold occupied
  dsimp only
  split
  · unfold veiled
    dsimp only
    rw [hgraph, ← hset]
    rfl
  · unfold veiled
    dsimp only
    rw [hset]

theorem veiled_vacated (job : Job) (e : LoadError) : (l.vacated job e).veiled = l.veiled := by
  unfold vacated veiled
  split <;> simp [Cache.poison, Cache.rollback]

theorem veiled_settled (job : Job) : (l.settled job).veiled = l.veiled := by
  unfold settled veiled
  dsimp only
  split <;> simp

/-- Where a module goes, whom legacy modules take for the main module and whether the parent is severed is veiled. -/
theorem veiled_concealed (job : Job) (format : Format) : (l.concealed job format).veiled = l.veiled := by
  have hsevered : ∀ l₁ : Loader, ({ l₁ with
      graph := l₁.graph.update job.id fun e => { e with parent := none } } : Loader).veiled = l₁.veiled := fun l₁ => by
    have hgraph := l₁.graph.veiled_update_of_eq job.id (f := fun e => { e with parent := none }) fun _ => rfl
    unfold veiled
    dsimp only
    rw [hgraph]
  unfold concealed
  dsimp only
  split
  · rfl
  · split
    · refine (hsevered _).trans ?_
      split <;> rfl
    · split <;> rfl

theorem veiled_concluded (job : Job) :
    (l.concluded job).veiled = l.veiled.linked job.referrer job.request job.id := by
  unfold concluded
  rw [veiled_concealed, veiled_linked]
  exact congrArg (linked · job.referrer job.request job.id) (l.veiled_settled job)

variable {l} in
/-- What is not veiled is the same. -/
theorem eq_of_veiled {α : Type} {l' : Loader} (f : Loader → α) (hf : ∀ l : Loader, f l.veiled = f l)
    (h : l'.veiled = l.veiled) : f l' = f l := by
  rw [← hf, h, hf]

variable {l} in
theorem veiled_files {l' : Loader} (h : l'.veiled = l.veiled) {fs fs' : FileSystem} (hf : fs' = fs) :
    ({ l' with files := fs' } : Loader).veiled = ({ l with files := fs } : Loader).veiled := by
  subst hf
  exact congrArg (fun v : Loader => { v with files := fs' }) h

/-! ## Reading -/

variable {α β : Type}

/-- Loaders that differ only in what is veiled do the same. -/
def Unaffected (action : LoadM α) : Prop :=
  ∀ l l' : Loader, l'.veiled = l.veiled →
    (l'.run action).1 = (l.run action).1 ∧ (l'.run action).2.veiled = (l.run action).2.veiled

namespace Unaffected

theorem pure (a : α) : Unaffected (Pure.pure a) := fun _ _ h => ⟨rfl, h⟩

theorem throw (e : LoadError) : Unaffected (MonadExcept.throw e : LoadM α) := fun _ _ h => ⟨rfl, h⟩

theorem report (event : Event) : Unaffected (Loader.report event) := fun _ _ h => ⟨rfl, h⟩

theorem change {f : Loader → Loader} (hf : ∀ {l l' : Loader}, l'.veiled = l.veiled → (f l').veiled = (f l).veiled) :
    Unaffected (modify f) := fun _ _ h => ⟨rfl, hf h⟩

theorem bind {action : LoadM α} {next : α → LoadM β} (h : Unaffected action) (hnext : ∀ a, Unaffected (next a)) :
    Unaffected (action >>= next) := by
  intro l l' hv
  obtain ⟨hresult, hloader⟩ := h l l' hv
  rw [run_bind, run_bind]
  generalize l'.run action = r' at hresult hloader ⊢
  generalize l.run action = r at hresult hloader ⊢
  obtain ⟨e | a, l₁⟩ := r <;> obtain ⟨e' | a', l₁'⟩ := r' <;> cases hresult
  · exact ⟨rfl, hloader⟩
  · exact hnext a _ _ hloader

/-- What is done next may depend on the loader, apart from what is veiled. -/
theorem get {next : Loader → LoadM α} (h : ∀ l, Unaffected (next l))
    (hnext : ∀ {l l' : Loader}, l'.veiled = l.veiled → next l' = next l) : Unaffected (MonadState.get >>= next) := by
  intro l l' hv
  rw [run_bind, run_bind, run_get, run_get, andThen_ok, andThen_ok, hnext hv]
  exact h l l l' hv

theorem sourceOf (file : Path) : Unaffected (Loader.sourceOf file) := by
  refine get (fun l => ?_) fun {l l'} h => ?_
  · split
    · exact pure _
    · refine (report _).bind fun _ => ?_
      split
      · exact throw _
      · next source _ =>
        refine (change fun h => ?_).bind fun _ => pure _
        exact congrArg (fun v : Loader => { v with sources := v.sources.insert file.components source }) h
  · have hsources : l'.sources = l.sources := eq_of_veiled Loader.sources (fun _ => rfl) h
    have hreader : l'.reader = l.reader := eq_of_veiled Loader.reader (fun _ => rfl) h
    have hfiles : l'.files = l.files := eq_of_veiled Loader.files (fun _ => rfl) h
    rw [hsources, hreader, hfiles]

theorem storedProgram? (file : Path) (digest : String) : Unaffected (Loader.storedProgram? file digest) := by
  refine get (fun l => ?_) fun {l l'} h => ?_
  · split
    · exact pure _
    · refine get (fun l => ?_) fun {l l'} h => ?_
      · refine (change fun {l l'} h => veiled_files h ?_).bind fun _ => ?_
        · have hfiles : l'.files = l.files := eq_of_veiled Loader.files (fun _ => rfl) h
          rw [hfiles]
        · split
          · exact pure _
          · exact (report _).bind fun _ => pure _
          · exact (report _).bind fun _ => pure _
      · have hfiles : l'.files = l.files := eq_of_veiled Loader.files (fun _ => rfl) h
        rw [hfiles]
  · have hcache : l'.codeCache? = l.codeCache? := eq_of_veiled Loader.codeCache? (fun _ => rfl) h
    rw [hcache]

theorem storeProgram (file : Path) (digest : String) (p : Source.Program) :
    Unaffected (Loader.storeProgram file digest p) := by
  refine get (fun l => ?_) fun {l l'} h => ?_
  · split
    · exact pure _
    · refine get (fun l => ?_) fun {l l'} h => ?_
      · refine (change fun h => veiled_files h rfl).bind fun _ => ?_
        · split
          · exact pure _
          · exact report _
      · have hfiles : l'.files = l.files := eq_of_veiled Loader.files (fun _ => rfl) h
        rw [hfiles]
  · have hcache : l'.codeCache? = l.codeCache? := eq_of_veiled Loader.codeCache? (fun _ => rfl) h
    rw [hcache]

theorem scanSource (file : Path) (source : String) : Unaffected (Loader.scanSource file source) := by
  refine (storedProgram? _ _).bind fun found => ?_
  cases found with
  | some p => exact pure _
  | none =>
    dsimp only
    split
    · exact throw _
    · exact (storeProgram _ _ _).bind fun _ => pure _

/-- The program of a file does not depend on what is exposed. -/
theorem programOf (file : Path) : Unaffected (Loader.programOf file) := by
  refine get (fun l => ?_) fun {l l'} h => ?_
  · split
    · exact pure _
    · refine (sourceOf file).bind fun source => (scanSource file source).bind fun p => ?_
      refine (change fun h => ?_).bind fun _ => pure _
      exact congrArg (fun v : Loader => { v with programs := v.programs.insert file.components p }) h
  · have hprograms : l'.programs = l.programs := eq_of_veiled Loader.programs (fun _ => rfl) h
    rw [hprograms]

end Unaffected

theorem nestingBound_of_veiled {l l' : Loader} (h : l'.veiled = l.veiled) (request : String) :
    l'.nestingBound request = l.nestingBound request := by
  have hsources : l'.sources = l.sources := eq_of_veiled Loader.sources (fun _ => rfl) h
  have hprograms : l'.programs = l.programs := eq_of_veiled Loader.programs (fun _ => rfl) h
  have hcompilers : l'.compilers = l.compilers := eq_of_veiled Loader.compilers (fun _ => rfl) h
  have hfiles : l'.files = l.files := eq_of_veiled Loader.files (fun _ => rfl) h
  unfold nestingBound textBound textsAtHand
  rw [hsources, hprograms, hcompilers, hfiles]

end Loader
end ModGraph
