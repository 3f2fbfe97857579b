import ModGraph.Proofs.Shadows
import ModGraph.Proofs.Views

/-!
# In lockstep

A load that evaluates what it finds is followed, step by step, by a load that does not: by a parse-only pass, or by
a load that takes up modules which were parsed before. What is found is found on both sides, what is compiled is
compiled on both sides, and the modules stay twins (`Loader.Twinned.loadWithin`). Where the first load fails the
other one fails with the same error, unless it only parses (`Loader.Mirrors`). A module that it takes up has to be
as a parse-only pass leaves it (`View.Shelf`), and no package may let its requests search the folders for legacy
modules, which a module does by the format that it had when it began.
-/

namespace ModGraph

open Json (Value)
open Loader (Job Lasts)

/-- What of the entry that makes a request matters for the answer. -/
def Referrer.sight (r : Referrer) : Path × Format × PackageContext := (r.filename, r.format, r.package)

/-- No package lets its requests search the folders for legacy modules. -/
def World.Narrow (w : World) : Prop := ∀ file, (w.package file).options.cjs.paths = false

/-- The entry of a builtin module that was not asked for before. -/
def World.builtinEntry (w : World) (name : String) : Entry :=
  ((Entry.new name ⟨name⟩ .legacy ⟨none, w.defaults⟩).setExports (w.builtin name)).setLoaded true

/-- What was parsed before: modules that are not loaded and export nothing yet, unless their file is their own
value, and builtin modules. A parse-only pass begins without any. -/
structure View.Shelf (w : World) (parsing : Bool) (start : View) : Prop extends start.Shelved where
  empty : parsing = true → ∀ ref, start.held ref = none
  key : ∀ {key j}, start.held (.module key) = some (.ready j) → (start.graph.entry j).key = key
  unloaded : ∀ {key j}, start.held (.module key) = some (.ready j) → (start.graph.entry j).isLoaded = false
  filename : ∀ {key j}, start.held (.module key) = some (.ready j) →
    (start.graph.entry j).module.filename = keyFile key
  package : ∀ {key j}, start.held (.module key) = some (.ready j) →
    (start.graph.entry j).package = w.package (keyFile key)
  blank : ∀ {key j}, start.held (.module key) = some (.ready j) →
    (start.graph.entry j).module.exports = .object [] ∨ (keyFile key).extension = some "json"
  builtin : ∀ {name j}, start.held (.builtin name) = some (.ready j) →
    ∃ children, start.graph.entry j = { w.builtinEntry name with children := children }

theorem Loader.searchPaths_of_narrow {package : PackageContext} (h : package.options.cjs.paths = false)
    (r : Resolver) (format : Format) (filename : Path) :
    searchPaths r package format filename = filename.directory.moduleFolders := by
  simp [searchPaths, h]

namespace Entry.Kin

variable {parsing : Bool} {before : Option Entry} {size : Nat} {m : EntryId → EntryId} {e e' : Entry}
  {filename : Path}

/-- The compilers of twins begin. -/
theorem begun (h : e.Kin parsing before size m e') (hn : e.package.options.cjs.paths = false)
    (hpaths : e.module.paths = []) (r r' : Resolver) (filename : Path) :
    (e.begun r filename).Kin parsing before size m (e'.begun r' filename) :=
  { h with
    filename := rfl
    paths := by
      have hfolders : (e.begun r filename).module.paths = filename.directory.moduleFolders := by
        unfold Entry.begun
        rw [hpaths]
        exact Loader.searchPaths_of_narrow hn _ _ _
      rw [hfolders]
      unfold Entry.begun
      dsimp only
      split
      · exact .inl (Loader.searchPaths_of_narrow (h.package ▸ hn) _ _ _)
      · next hempty =>
        refine .inr (h.paths.resolve_left fun heq => hempty ?_)
        rw [heq, hpaths]
        rfl }

/-- The compilers of twins end. -/
theorem marked (h : e.Kin parsing before size m e') (hn : e.package.options.cjs.paths = false)
    (hpaths : e.module.paths = filename.directory.moduleFolders) {c c' : Loader.Compilation}
    (hc : c.parsing = false) (hc' : c'.parsing = parsing) (r r' : Resolver) :
    (e.marked r filename c).Kin parsing before size m (e'.marked r' filename c') := by
  obtain ⟨paths, hp, heq⟩ := e.marked_eq r filename c
  obtain ⟨paths', hp', heq'⟩ := e'.marked_eq r' filename c'
  have hfolders : paths = filename.directory.moduleFolders := by
    rcases hp with hp | hp
    · rw [hp, Loader.searchPaths_of_narrow hn]
    · rw [hp, hpaths]
  rw [heq, heq', hc, hc']
  exact { h with
    isLoaded := fun hparsing => by rw [hparsing]; rfl
    paths := by
      rcases hp' with hp' | hp'
      · exact .inl (by rw [hp', hfolders, Loader.searchPaths_of_narrow (h.package ▸ hn)])
      · dsimp only
        rw [hp', hfolders, ← hpaths]
        exact h.paths }

end Entry.Kin

namespace Loader

variable {α β : Type} {w : World} {parsing : Bool} {start : View} {m m' : EntryId → EntryId}
  {l l' l₁ l₁' l₂ l₂' : Loader} {job job' : Job} {limit : Nat} {request : String} {f x : Bool}

/-! ## Runs side by side -/

/-- A run is mirrored by another: where it comes to its end so does the other, and well; where it fails so does
the other, with the same error, unless in a parse-only pass. -/
def Mirrors (parsing : Bool) (good : α → Loader → α → Loader → Prop) :
    Except LoadError α × Loader → Except LoadError α × Loader → Prop
  | (.ok a, l), r' => ∃ a' l', r' = (.ok a', l') ∧ good a l a' l'
  | (.error e, _), r' => parsing = false → r'.1 = .error e

namespace Mirrors

variable {r r' : Except LoadError α × Loader} {good : α → Loader → α → Loader → Prop}

theorem andThen {good' : β → Loader → β → Loader → Prop} {next next' : α → LoadM β} (h : Mirrors parsing good r r')
    (hn : ∀ {a l a' l'}, r = (.ok a, l) → r' = (.ok a', l') → good a l a' l' →
      Mirrors parsing good' (l.run (next a)) (l'.run (next' a'))) :
    Mirrors parsing good' (Loader.andThen r next) (Loader.andThen r' next') := by
  obtain ⟨e | a, l⟩ := r
  · obtain ⟨result, l'⟩ := r'
    intro hp
    obtain rfl : result = .error e := h hp
    rfl
  · obtain ⟨a', l', rfl, h⟩ := h
    exact hn rfl rfl h

end Mirrors

/-! ## What matters of a request -/

/-- Without a search the format, the file and the package of who asks are all that matters. -/
theorem resolution_of_sight {r : Resolver} {fs : FileSystem} {a b : Option Referrer}
    (h : b.map Referrer.sight = a.map Referrer.sight) (hn : ∀ x ∈ a, x.package.options.cjs.paths = false)
    (specifier : String) (isMain : Bool) :
    resolution r fs specifier b isMain = resolution r fs specifier a isMain := by
  cases a with
  | none =>
    obtain rfl : b = none := by simpa using h
    rfl
  | some x =>
    obtain ⟨y, rfl, hsight⟩ := Option.map_eq_some_iff.mp h
    obtain ⟨hfile, hformat, hpackage⟩ : y.filename = x.filename ∧ y.format = x.format ∧ y.package = x.package := by
      simpa [Referrer.sight] using hsight
    have hx : searchesGlobally x = false := by simp [searchesGlobally, hn x rfl]
    have hy : searchesGlobally y = false := by simp [searchesGlobally, hpackage, hn x rfl]
    simp [resolution, globalQuery?, query, hfile, hformat, Option.filter_some, hx, hy]

theorem severs_of_sight {a b : Option Referrer} (h : b.map Referrer.sight = a.map Referrer.sight)
    (format : Format) : severs b format = severs a format := by
  cases a with
  | none =>
    obtain rfl : b = none := by simpa using h
    rfl
  | some x =>
    obtain ⟨y, rfl, hsight⟩ := Option.map_eq_some_iff.mp h
    obtain ⟨-, hformat, hpackage⟩ : y.filename = x.filename ∧ y.format = x.format ∧ y.package = x.package := by
      simpa [Referrer.sight] using hsight
    simp [severs, hformat, hpackage]

/-! ## Single loaders -/

/-- A loader with the compilers that come with it, which sees a world, in a parse-only pass or not. -/
structure Engaged (w : World) (parsing : Bool) (l : Loader) : Prop extends Consistent l, Watching w l where
  compilers : l.compilers = .standard
  parsing : l.cache.parsing = parsing

namespace Engaged

theorem of_safely {own : Option Job} (h : l.Engaged w parsing) (hs : Safely own (Watching.Lasts w) l l')
    (he : l.Evolves l') (hown : ∀ j ∈ own, l.InProgress j.target.key j.partition j.id) : l'.Engaged w parsing := by
  obtain ⟨hspared, hlasts⟩ := hs h.toConsistent hown
  exact { hspared.consistent, hlasts h.toWatching with
    compilers := he.compilers.trans h.compilers
    parsing := he.cache.parsing.trans h.parsing }

theorem noted (h : l.Engaged w parsing) (event : Event) : (l.noted [event]).Engaged w parsing :=
  h.of_safely (Watching.loads.noted l event) (Evolves.report event l) fun _ (hj : _ ∈ none) => nomatch hj

theorem seek (h : l.Engaged w parsing) (request : String) (parent : Option EntryId) (isMain : Bool) :
    (l.run (Loader.seek request parent isMain)).2.Engaged w parsing :=
  h.of_safely (.of_spares (Spares.seek request parent isMain l) (Watching.loads.seek · request parent isMain))
    (Evolves.respects.seek request parent isMain l) fun _ (hj : _ ∈ none) => nomatch hj

theorem builtinEntry (h : l.Engaged w parsing) (name : String) : l.builtinEntry name = w.builtinEntry name := by
  unfold Loader.builtinEntry World.builtinEntry World.builtin PackageContexts.defaultContext
  rw [h.sees.builtinExports, h.sees.packages.defaults]
  rfl

end Engaged

/-- A loader that compiles the module of a job. -/
structure Employed (w : World) (parsing : Bool) (job : Job) (l : Loader) : Prop extends Engaged w parsing l where
  running : l.InProgress job.target.key job.partition job.id
  file : keyFile job.target.key = job.target.filename

namespace Employed

theorem inRange (h : l.Employed w parsing job) : job.id < l.graph.size := (h.keyed h.running rfl).1

theorem of_safely (h : l.Employed w parsing job) (hs : Safely (some job) (Watching.Lasts w) l l') (he : l.Evolves l') :
    l'.Employed w parsing job := by
  have hown : ∀ j ∈ some job, l.InProgress j.target.key j.partition j.id := by
    rintro _ ⟨⟩
    exact h.running
  exact { h.toEngaged.of_safely hs he hown with
    running := ((hs h.toConsistent hown).1.progress _ _ _).mpr h.running
    file := h.file }

/-- The compiler writes to its module. -/
theorem write (h : l.Employed w parsing job) {g : Entry → Entry} (hg : ∀ e : Entry, e.Retains (g e)) :
    ({ l with graph := l.graph.update job.id g } : Loader).Employed w parsing job :=
  h.of_safely ((Watching.loads.compiles h.file).updateEntry hg l)
    ((Evolves.respects.compiles job.id).updateEntry hg l)

theorem source (h : l.Employed w parsing job) :
    (l.run (sourceOf job.target.filename)).1 = w.source job.target.filename ∧
      (l.run (sourceOf job.target.filename)).2.Employed w parsing job :=
  ⟨(h.sees.run_sourceOf (h.file ▸ h.canonical (Cache.get?_of_slot? h.running))).1,
    h.of_safely ((Watching.loads.compiles h.file).source l) (Evolves.reading.source _ l)⟩

theorem program (h : l.Employed w parsing job) :
    (l.run (programOf job.target.filename)).1 = w.program job.target.filename ∧
    (l.run (programOf job.target.filename)).2.Employed w parsing job :=
  ⟨(h.sees.run_programOf (h.file ▸ h.canonical (Cache.get?_of_slot? h.running))).1,
    h.of_safely ((Watching.loads.compiles h.file).program l) (Evolves.reading.program _ l)⟩

/-- Other modules are loaded in the meantime. -/
theorem nested (h : l.Employed w parsing job) (limit : Nat) (request : String) (id : EntryId) :
    (l.run (loadNested limit request id)).2.Employed w parsing job ∧
      (l.graph.entry job.id).Spared ((l.run (loadNested limit request id)).2.graph.entry job.id) := by
  have hsafe : Safely none (Watching.Lasts w) l (l.run (loadNested limit request id)).2 :=
    (Watching.loads.loadNested limit request id).follows (Safely.outcomes .self) l
  exact ⟨h.of_safely hsafe.mono (Evolves.respects.loadNested limit request id l),
    (hsafe.spared h.toConsistent).entry ⟨h.inRange, .inr ⟨_, _, h.running⟩⟩ not_false⟩

/-- The compiler of a module that is due begins. -/
theorem begun (h : l.Engaged w parsing) (hd : l.Due job) :
    ((l.occupied job).begun job.id job.target.filename).Employed w parsing job := by
  have hevolves : Evolves l (l.occupied job) := by
    have := Evolves.respects.occupy job l
    rwa [run_occupy] at this
  have hoccupied : (l.occupied job).Employed w parsing job :=
    { hd.ready.consistent_occupied h.toConsistent, h.toWatching.occupied hd with
      compilers := hevolves.compilers.trans h.compilers
      parsing := hevolves.cache.parsing.trans h.parsing
      running := hd.ready.own_occupied job rfl
      file := hd.keyFile_key }
  have hsafe := ((@Watching.loads w).compiles hd.keyFile_key).beginCompile (l.occupied job)
  have hbegun := (Evolves.respects.compiles job.id).beginCompile job.target.filename (l.occupied job)
  rw [run_beginCompile] at hsafe hbegun
  exact hoccupied.of_safely hsafe hbegun

end Employed

/-! ## Twins at work -/

/-- The request of an entry and of its twin are the same. -/
def Alike (m : EntryId → EntryId) (l l' : Loader) (parent : Option EntryId) : Prop :=
  ∀ id ∈ parent, id < l.graph.size ∧ (l'.graph.entry (m id)).format = (l.graph.entry id).format ∧
    (l.graph.entry id).package.options.cjs.paths = false

/-- The answers to a request are twins, and the twins of the entries that there were before stay the same. -/
def Answers (parsing : Bool) (start : View) (m : EntryId → EntryId) (size : Nat) (id : EntryId) (l₁ : Loader)
    (id' : EntryId) (l₁' : Loader) : Prop :=
  ∃ m', Twins parsing start none m' l₁.view l₁'.view ∧ (∀ i < size, m' i = m i) ∧
    id < l₁.graph.size ∧ m' id = id'

/-- Nested loads are mirrored. -/
def InStep (w : World) (parsing : Bool) (start : View) (limit : Nat) : Prop :=
  ∀ {m l l'} request id, l.Engaged w false → l'.Engaged w parsing → Twins parsing start none m l.view l'.view →
    Alike m l l' (some id) →
      Mirrors parsing (Answers parsing start m l.graph.size) (l.run (loadNested limit request id))
        (l'.run (loadNested limit request (m id)))

/-- Two jobs for the same request, of an entry and of its twin. -/
structure Paired (m : EntryId → EntryId) (size : Nat) (job job' : Job) : Prop where
  request : job'.request = job.request
  target : job'.target = job.target
  sight : job'.referrer.map Referrer.sight = job.referrer.map Referrer.sight
  ids : job'.referrer.map Referrer.id = (job.referrer.map Referrer.id).map m
  asks : ∀ i ∈ job.referrer.map Referrer.id, i < size

theorem Paired.extend {size size' : Nat} (h : Paired m size job job') (hsize : size ≤ size')
    (hm : ∀ i < size, m' i = m i) : Paired m' size' job job' :=
  { h with
    ids := by
      rw [h.ids]
      exact Option.map_congr fun i hi => (hm i (h.asks i hi)).symm
    asks := fun i hi => Nat.lt_of_lt_of_le (h.asks i hi) hsize }

/-- Twins that were compiled take their places. -/
theorem Paired.concluded (h : Paired m l.graph.size job job') (ht : Twins parsing start none m l.view l'.view)
    (ho : l.Orderly) (ho' : l'.Orderly) (hin : l.InProgress job.target.key job.partition job.id)
    (hin' : l'.InProgress job'.target.key job'.partition job'.id) (hp : l.cache.parsing = false)
    (hp' : l'.cache.parsing = parsing) (hlt : job.id < l.graph.size)
    (hloaded : (l.graph.entry job.id).isLoaded = true) (htwin : m job.id = job'.id) :
    Twins parsing start none m (l.concluded job).view (l'.concluded job').view := by
  have hheld : l.view.held (.module job.target.key) = some (.loading job.id) :=
    held_of_slot? hin
  have hlinked := (ht.finish hheld hloaded).linked h.asks job.request hlt
  have hsevers : parsing = false → severs job'.referrer (l'.graph.entry job'.id).format
      = severs job.referrer (l.graph.entry job.id).format := fun hparsing => by
    rw [severs_of_sight h.sight, ← htwin]
    exact congrArg (severs job.referrer) (ht.same hparsing hlt nofun).1
  rw [view_concluded ho hin, view_concluded ho' hin', hp, hp']
  dsimp only
  rw [View.put_linked, View.put_linked, h.ids, h.request, h.target, ← htwin]
  rw [← htwin] at hsevers
  have hsize : (((l.view.put (.module job.target.key) (.ready job.id)).linked (job.referrer.map Referrer.id)
      job.request job.id)).graph.size = l.graph.size := View.size_linked _ _ _ _
  by_cases hs : severs job.referrer (l.graph.entry job.id).format = true
  · rw [if_pos ⟨rfl, hs⟩]
    cases parsing with
    | false =>
      rw [if_pos ⟨rfl, (hsevers rfl).trans hs⟩]
      exact hlinked.update (hsize ▸ hlt) (fun hkin _ => hkin.sever (.inl rfl)) (fun hl => hl)
        fun hf hne => hlinked.same hf (hsize ▸ hlt) hne
    | true =>
      rw [if_neg nofun]
      -- a parse-only pass leaves the twin its parent
      have hsevered := hlinked.update (hsize ▸ hlt) (g := fun e => e)
        (fun hkin _ => hkin.sever (.inr ⟨rfl, rfl⟩)) (fun hl => hl) nofun
      rwa [View.update_self] at hsevered
  · rw [if_neg fun hc => hs hc.2, if_neg fun hc => hs ((hsevers hc.1).symm.trans hc.2)]
    exact hlinked

/-- Two loaders at work on twins: whether their formats and their exports agree are the last two arguments. The
twins of the modules that there were in the beginning stay the same. -/
structure Works (w : World) (parsing : Bool) (start : View) (m₀ : EntryId → EntryId) (size : Nat)
    (job job' : Job) (m : EntryId → EntryId) (f x : Bool) (l l' : Loader) : Prop where
  lead : l.Employed w false job
  follow : l'.Employed w parsing job'
  twins : Twins parsing start (some job.id) m l.view l'.view
  twin : m job.id = job'.id
  paired : Paired m₀ size job job'
  grown : size ≤ l.graph.size
  kept : ∀ i < size, m i = m₀ i
  package : (l.graph.entry job.id).package.options.cjs.paths = false
  paths : (l.graph.entry job.id).module.paths = job.target.filename.directory.moduleFolders
  format : f = true → (l'.graph.entry job'.id).format = (l.graph.entry job.id).format
  exports : x = true → parsing = false →
    (l'.graph.entry job'.id).module.exports = (l.graph.entry job.id).module.exports

namespace Works

variable {m₀ : EntryId → EntryId} {size : Nat} {f' x' : Bool}

theorem settle (h : Works w parsing start m₀ size job job' m true true l l') :
    Twins parsing start none m l.view l'.view :=
  h.twins.settle fun hp => by
    rw [h.twin]
    exact ⟨h.format rfl, h.exports rfl hp⟩

/-- Nothing happened to modules. -/
theorem of_same (h : Works w parsing start m₀ size job job' m f x l l') (hl : l₁.Employed w false job)
    (hl' : l₁'.Employed w parsing job') (hc : l₁.cache = l.cache) (hg : l₁.graph = l.graph)
    (hc' : l₁'.cache = l'.cache) (hg' : l₁'.graph = l'.graph) :
    Works w parsing start m₀ size job job' m f x l₁ l₁' where
  lead := hl
  follow := hl'
  twins := by rw [view_of_same hc hg, view_of_same hc' hg']; exact h.twins
  twin := h.twin
  paired := h.paired
  grown := by rw [hg]; exact h.grown
  kept := h.kept
  package := by rw [hg]; exact h.package
  paths := by rw [hg]; exact h.paths
  format := by rw [hg, hg']; exact h.format
  exports := by rw [hg, hg']; exact h.exports

/-- Both compilers read the same. -/
theorem reading (h : Works w parsing start m₀ size job job' m f x l l') {action : LoadM α}
    {result : Except LoadError α} (hl : (l.run action).1 = result ∧ (l.run action).2.Employed w false job)
    (hl' : (l'.run action).1 = result ∧ (l'.run action).2.Employed w parsing job') (hq : Follows Quiet action)
    {good : β → Loader → β → Loader → Prop} {next next' : α → LoadM β}
    (hn : ∀ a l₁ l₁', Works w parsing start m₀ size job job' m f x l₁ l₁' →
      Mirrors parsing good (l₁.run (next a)) (l₁'.run (next' a))) :
    Mirrors parsing good (andThen (l.run action) next) (andThen (l'.run action) next') := by
  obtain ⟨rfl, hlead⟩ := hl
  obtain ⟨hsame, hfollow⟩ := hl'
  have hw := h.of_same hlead hfollow (hq l).cache (hq l).graph (hq l').cache (hq l').graph
  generalize l.run action = r at hsame hw ⊢
  generalize l'.run action = r' at hsame hw ⊢
  obtain ⟨result, l₁⟩ := r
  obtain ⟨result', l₁'⟩ := r'
  obtain rfl : result' = result := hsame
  cases result' with
  | error e => exact fun _ => rfl
  | ok a => exact hn a l₁ l₁' hw

theorem report (h : Works w parsing start m₀ size job job' m f x l l') (event : Event) :
    Works w parsing start m₀ size job job' m f x (l.noted [event]) (l'.noted [event]) :=
  h.of_same (h.lead.of_safely (Watching.loads.noted l event) (Evolves.report event l))
    (h.follow.of_safely (Watching.loads.noted l' event) (Evolves.report event l')) rfl rfl rfl rfl

/-- Both compilers write to their modules, or only one does. -/
theorem write (h : Works w parsing start m₀ size job job' m f x l l') {g g' : Entry → Entry}
    (hg : ∀ e : Entry, e.Recast (g e)) (hg' : ∀ e : Entry, e.Recast (g' e))
    (hformat : f' = true → (g' (l'.graph.entry job'.id)).format = (g (l.graph.entry job.id)).format)
    (hexports : x' = true → parsing = false →
      (g' (l'.graph.entry job'.id)).module.exports = (g (l.graph.entry job.id)).module.exports) :
    Works w parsing start m₀ size job job' m f' x' { l with graph := l.graph.update job.id g }
      { l' with graph := l'.graph.update job'.id g' } := by
  have hself : (l.graph.update job.id g).entry job.id = g (l.graph.entry job.id) :=
    Graph.entry_update_self _ _ h.lead.inRange
  have hself' : (l'.graph.update job'.id g').entry job'.id = g' (l'.graph.entry job'.id) :=
    Graph.entry_update_self _ _ h.follow.inRange
  obtain ⟨exports, hmodule⟩ := (hg (l.graph.entry job.id)).module
  refine ⟨h.lead.write fun e => (hg e).retains, h.follow.write fun e => (hg' e).retains, ?_, h.twin, h.paired,
    ?_, h.kept, ?_, ?_, ?_, ?_⟩
  · rw [← h.twin]
    exact h.twins.update h.lead.inRange (fun hkin _ => hkin.recast (hg _) (hg' _))
      (fun hl => (hg _).isLoaded.trans hl) fun _ hne => absurd rfl hne
  · rw [Graph.size_update]
    exact h.grown
  · exact (congrArg (·.package.options.cjs.paths) hself).trans
      ((congrArg (·.options.cjs.paths) (hg _).package).trans h.package)
  · exact (congrArg (·.module.paths) hself).trans ((congrArg Module.paths hmodule).trans h.paths)
  · intro hf
    exact (congrArg Entry.format hself').trans ((hformat hf).trans (congrArg Entry.format hself).symm)
  · intro hx hp
    exact (congrArg (·.module.exports) hself').trans
      ((hexports hx hp).trans (congrArg (·.module.exports) hself).symm)

/-- In a parse-only pass only the first compiler exports anything. -/
theorem skip (h : Works w parsing start m₀ size job job' m f x l l') (hp : parsing = true) (v : Entry → Value) :
    Works w parsing start m₀ size job job' m f x
      { l with graph := l.graph.update job.id fun e => e.setExports (v e) } l' := by
  have hw : Works w parsing start m₀ size job job' m f x
      { l with graph := l.graph.update job.id fun e => e.setExports (v e) }
      { l' with graph := l'.graph.update job'.id fun e => e } :=
    h.write (fun e => .setExports e _) .refl h.format fun _ hp' => by rw [hp] at hp'; cases hp'
  rwa [Graph.update_self] at hw

/-- Other modules are loaded in the meantime. -/
theorem nested (h : Works w parsing start m₀ size job job' m true true l l') (request : String)
    {r r' : Except LoadError EntryId} (hrun : l.run (loadNested limit request job.id) = (r, l₁))
    (hrun' : l'.run (loadNested limit request job'.id) = (r', l₁'))
    (ht : Twins parsing start none m' l₁.view l₁'.view) (hm : ∀ i < l.graph.size, m' i = m i) :
    Works w parsing start m₀ size job job' m' true true l₁ l₁' := by
  obtain ⟨hlead, hs⟩ := h.lead.nested limit request job.id
  obtain ⟨hfollow, hs'⟩ := h.follow.nested limit request job'.id
  have hsize : l.graph.size ≤ (l.run (loadNested limit request job.id)).2.graph.size :=
    (Evolves.respects.loadNested limit request job.id l).graph.size
  rw [hrun] at hlead hs hsize
  rw [hrun'] at hfollow hs'
  exact {
    lead := hlead
    follow := hfollow
    twins := ht.weaken
    twin := (hm _ h.lead.inRange).trans h.twin
    paired := h.paired
    grown := Nat.le_trans h.grown hsize
    kept := fun i hi => (hm i (Nat.lt_of_lt_of_le hi h.grown)).trans (h.kept i hi)
    package := by rw [hs.package]; exact h.package
    paths := by rw [hs.module]; exact h.paths
    format := fun hf => by rw [hs.format, hs'.format]; exact h.format hf
    exports := fun hx hp => by rw [hs.module, hs'.module]; exact h.exports hx hp }

theorem alike (h : Works w parsing start m₀ size job job' m true x l l') : Alike m l l' (some job.id) := by
  rintro _ ⟨⟩
  exact ⟨h.lead.inRange, by rw [h.twin]; exact h.format rfl, h.package⟩

/-- What twins tell of themselves is the same where both are evaluated. -/
theorem dependency_eq {c : EntryId} (ht : Twins false start none m l.view l'.view) (hc : c < l.graph.size) :
    (⟨(l.graph.entry c).key, (l.graph.entry c).isLoaded, (l.graph.entry c).module.exports⟩ : Dependency) =
      ⟨(l'.graph.entry (m c)).key, (l'.graph.entry (m c)).isLoaded, (l'.graph.entry (m c)).module.exports⟩ := by
  have hkin := ht.kin hc
  obtain ⟨-, hexports⟩ := ht.same rfl hc nofun
  exact congr (congrArg₂ Dependency.mk hkin.key.symm (hkin.isLoaded rfl).symm) hexports.symm

/-- A task that another one shadows is mirrored, instruction by instruction. -/
theorem runTask (hstep : InStep w parsing start limit) {t t' : Task} (ht : Shadow parsing f x t t')
    (h : Works w parsing start m₀ size job job' m f x l l') :
    Mirrors parsing (fun _ l₂ _ l₂' => ∃ m', Works w parsing start m₀ size job job' m' true true l₂ l₂')
      (l.run (Loader.runTask (loadNested limit) job.id job.target.filename t))
      (l'.run (Loader.runTask (loadNested limit) job'.id job.target.filename t')) := by
  have hfile : job'.target.filename = job.target.filename := by rw [h.paired.target]
  induction ht generalizing l l' m with
  | done => exact ⟨(), l', rfl, m, h⟩
  | fail e => exact fun _ => rfl
  | fails hp e t => exact fun hp' => by rw [hp] at hp'; cases hp'
  | setFormat format _ ih =>
    have hunloaded := h.lead.unfinished h.lead.running
    have hunloaded' := h.follow.unfinished h.follow.running
    rw [Loader.runTask, run_bind, run_setFormat, andThen_ok, hunloaded, Loader.runTask, run_bind, run_setFormat,
      andThen_ok, hunloaded']
    refine ih (h.write (fun e => .setFormat e format) (fun e => .setFormat e format) (fun _ => ?_) fun hx hp => ?_)
    · simp [Entry.setFormat, hunloaded, hunloaded']
    · simpa [Entry.setFormat, hunloaded, hunloaded'] using h.exports hx hp
  | report event _ ih => exact ih (h.report event)
  | readSource _ ih =>
    rw [Loader.runTask, run_bind, Loader.runTask, run_bind]
    exact h.reading h.lead.source (hfile ▸ h.follow.source) (Quiet.reading.source _) fun source _ _ hw => ih source hw
  | readProgram _ ih =>
    rw [Loader.runTask, run_bind, Loader.runTask, run_bind]
    exact h.reading h.lead.program (hfile ▸ h.follow.program) (Quiet.reading.program _) fun p _ _ hw => ih p hw
  | require request _ ih =>
    rw [Loader.runTask, run_bind, Loader.runTask, run_bind, ← h.twin]
    refine (hstep request job.id h.lead.toEngaged h.follow.toEngaged h.settle h.alike).andThen
      fun {c l₁ c' l₁'} hrun hrun' hc => ?_
    rw [h.twin] at hrun' ⊢
    obtain ⟨m', ht, hm, hlt, rfl⟩ := hc
    exact ih _ _ (fun hp => by subst hp; exact dependency_eq ht hlt) (h.nested request hrun hrun' ht hm)
  | setExports v _ ih =>
    exact ih (h.write (fun e => .setExports e v) (fun e => .setExports e v) h.format fun _ _ => rfl)
  | setExport name v _ ih =>
    refine ih (h.write (fun e => .setExports e _) (fun e => .setExports e _) h.format fun hx hp => ?_)
    exact congrArg (·.set name v) (h.exports rfl hp)
  | skipExports hp v _ ih => exact ih (h.skip hp fun _ => v)
  | skipExport hp name v _ ih => exact ih (h.skip hp fun e => e.module.exports.set name v)

/-- The compilers come to their end, and the twins take their places. -/
theorem concluded (h : Works w parsing start m₀ size job job' m true true l l') {c c' : Compilation}
    (hc : c.parsing = false) (hc' : c'.parsing = parsing) :
    Twins parsing start none m ((l.marked job.id job.target.filename c).concluded job).view
      ((l'.marked job'.id job'.target.filename c').concluded job').view := by
  have hi := h.lead.inRange
  have hsize : (l.marked job.id job.target.filename c).graph.size = l.graph.size :=
    (congrArg (·.graph.size) (l.view_marked job.id job.target.filename c)).trans (Graph.size_update _ _ _)
  have hsame : ∀ (e : Entry) r file (c : Compilation), (e.marked r file c).format = e.format ∧
      (e.marked r file c).module.exports = e.module.exports := fun e r file c => by
    obtain ⟨_, -, heq⟩ := e.marked_eq r file c
    rw [heq]
    exact ⟨rfl, rfl⟩
  have hmarked : Twins parsing start none m (l.marked job.id job.target.filename c).view
      (l'.marked job'.id job'.target.filename c').view := by
    rw [view_marked, view_marked, ← h.twin, h.paired.target]
    refine h.settle.update hi (fun hkin heq => ?_) (fun _ => ?_) fun hp _ => ?_
    · exact hkin.marked (heq ▸ h.package) (heq ▸ h.paths) hc hc' _ _
    · obtain ⟨_, -, heq⟩ := (l.view.graph.entry job.id).marked_eq l.resolver job.target.filename c
      rw [heq, hc]
      rfl
    · obtain ⟨hf, hx⟩ := h.settle.same hp hi nofun
      exact ⟨(hsame _ _ _ _).1.trans (hf.trans (hsame _ _ _ _).1.symm),
        (hsame _ _ _ _).2.trans (hx.trans (hsame _ _ _ _).2.symm)⟩
  exact (h.paired.extend (hsize ▸ h.grown) h.kept).concluded hmarked
    ⟨h.lead.exclusive, h.lead.unmarked.of_eq rfl rfl⟩ ⟨h.follow.exclusive, h.follow.unmarked.of_eq rfl rfl⟩
    h.lead.running h.follow.running h.lead.parsing h.follow.parsing (hsize.symm ▸ hi)
    (isLoaded_marked l job.target.filename hi hc) h.twin

end Works

/-! ## Compiling -/

/-- The module of a new entry is to be compiled on both sides; its twin is new, too, or was parsed before. -/
structure Matched (parsing : Bool) (start : View) (m : EntryId → EntryId) (size : Nat) (job : Job) (l₁ : Loader)
    (job' : Job) (l₁' : Loader) : Prop where
  paired : Paired m size job job'
  main : job.isMain = false
  main' : job'.isMain = false
  fresh : job.id = size
  inRange : job.id < l₁.graph.size
  entry : l₁.graph.entry job.id = newEntry job.referrer job.target
  narrow : job.target.package.options.cjs.paths = false
  package : (l₁'.graph.entry job'.id).package = job.target.package
  blank : (l₁'.graph.entry job'.id).module.exports = .object [] ∨ job.target.filename.extension = some "json"
  twins : Twins parsing start (some job.id) (Twins.extend m job.id job'.id)
    (l₁.view.put (.module job.target.key) (.loading job.id))
    (l₁'.view.put (.module job.target.key) (.loading job'.id))

namespace Matched

variable {size : Nat}

theorem works (h : Matched parsing start m size job l₁ job' l₁') (hl : l₁.Engaged w false) (hl' : l₁'.Engaged w parsing)
    (hd : l₁.Due job) (hd' : l₁'.Due job')
    (hx : x = true → (l₁'.graph.entry job'.id).module.exports = .object []) :
    Works w parsing start m size job job' (Twins.extend m job.id job'.id) false x
      ((l₁.occupied job).begun job.id job.target.filename)
      ((l₁'.occupied job').begun job'.id job'.target.filename) := by
  have htwin : Twins.extend m job.id job'.id job.id = job'.id := if_pos rfl
  have hview := view_occupied hd.ready h.main
  have hview' := view_occupied hd'.ready h.main'
  have hself : ((l₁.occupied job).begun job.id job.target.filename).graph.entry job.id
      = (l₁.graph.entry job.id).begun (l₁.occupied job).resolver job.target.filename := by
    refine (congrArg (·.graph.entry job.id) (view_begun (l₁.occupied job) job.id job.target.filename)).trans ?_
    rw [hview]
    exact Graph.entry_update_self _ _ h.inRange
  have hself' : ((l₁'.occupied job').begun job'.id job'.target.filename).graph.entry job'.id
      = (l₁'.graph.entry job'.id).begun (l₁'.occupied job').resolver job'.target.filename := by
    refine (congrArg (·.graph.entry job'.id) (view_begun (l₁'.occupied job') job'.id job'.target.filename)).trans ?_
    rw [hview']
    exact Graph.entry_update_self _ _ hd'.ready.inRange
  have hpaths : (l₁.graph.entry job.id).module.paths = [] := by rw [h.entry]; rfl
  have hnarrow : (l₁.graph.entry job.id).package.options.cjs.paths = false := by
    rw [h.entry]
    exact h.narrow
  refine ⟨.begun hl hd, .begun hl' hd', ?_, htwin, h.paired, ?_, fun i hi => if_neg ?_, ?_, ?_, nofun, ?_⟩
  · rw [view_begun, view_begun, hview, hview', h.paired.target]
    have hbegun := h.twins.update h.inRange (fun hkin heq => hkin.begun (heq ▸ hnarrow) (heq ▸ hpaths)
      (l₁.occupied job).resolver (l₁'.occupied job').resolver job.target.filename) (fun hloaded => hloaded)
      fun _ hne => absurd rfl hne
    rwa [htwin] at hbegun
  · refine Nat.le_trans (Nat.le_of_lt (h.fresh ▸ h.inRange)) (Nat.le_of_eq ?_)
    rw [← size_occupied l₁ job]
    exact (congrArg (·.graph.size) (view_begun (l₁.occupied job) job.id job.target.filename)).trans
      (Graph.size_update _ _ _) |>.symm
  · rw [h.fresh]
    exact Nat.ne_of_lt hi
  · rw [hself]
    exact hnarrow
  · rw [hself]
    unfold Entry.begun
    rw [hpaths]
    exact searchPaths_of_narrow hnarrow _ _ _
  · intro hx' _
    rw [hself, hself']
    unfold Entry.begun
    rw [h.entry]
    exact hx hx'

/-- The compilers run in lockstep. -/
theorem prepare (hstep : InStep w parsing start limit) (h : Matched parsing start m size job l₁ job' l₁')
    (hl : l₁.Engaged w false) (hl' : l₁'.Engaged w parsing) (hd : l₁.Due job) (hd' : l₁'.Due job') :
    Mirrors parsing (fun c l₂ c' l₂' => c.parsing = false ∧ c'.parsing = parsing ∧
        ∃ m', Works w parsing start m size job job' m' true true l₂ l₂')
      ((l₁.occupied job).run (Loader.prepare (loadNested limit) job.id job.target.filename))
      ((l₁'.occupied job').run (Loader.prepare (loadNested limit) job'.id job'.target.filename)) := by
  have hx : ∃ x, (x = true ∨ job.target.filename.extension = some "json") ∧
      (x = true → (l₁'.graph.entry job'.id).module.exports = .object []) := by
    rcases h.blank with hblank | hjson
    · exact ⟨true, .inl rfl, fun _ => hblank⟩
    · exact ⟨false, .inr hjson, nofun⟩
  obtain ⟨x, hshadow, hx⟩ := hx
  have hpackage : (l₁.graph.entry job.id).package = job.target.package := by rw [h.entry]; rfl
  have hrun := (h.works hl hl' hd hd' hx).runTask hstep
    (CompilerTable.shadow_standard job.target.filename job.target.package.options.mode parsing hshadow)
  rw [run_prepare, run_prepare, compilation_occupied, compilation_occupied, hl.compilers, hl.parsing, hl'.compilers,
    hl'.parsing, hpackage, h.package, h.paired.target]
  rw [h.paired.target] at hrun
  exact hrun.andThen fun _ _ hw => ⟨_, _, rfl, rfl, rfl, hw⟩

theorem perform (hstep : InStep w parsing start limit) (h : Matched parsing start m size job l₁ job' l₁')
    (hl : l₁.Engaged w false) (hl' : l₁'.Engaged w parsing) (hd : l₁.Due job) (hd' : l₁'.Due job') :
    Mirrors parsing (Answers parsing start m size) (l₁.run (Loader.perform (loadNested limit) job))
      (l₁'.run (Loader.perform (loadNested limit) job')) := by
  have hprepare := h.prepare hstep hl hl' hd hd'
  rw [Spares.run_perform (Spares.loadNested limit) hl.toConsistent hd.ready,
    Spares.run_perform (Spares.loadNested limit) hl'.toConsistent hd'.ready]
  generalize (l₁.occupied job).run _ = r at hprepare ⊢
  generalize (l₁'.occupied job').run _ = r' at hprepare ⊢
  obtain ⟨e | c, l₂⟩ := r
  · obtain ⟨result, l₂'⟩ := r'
    intro hp
    obtain rfl : result = .error e := hprepare hp
    rfl
  · obtain ⟨c', l₂', rfl, hc, hc', m', hw⟩ := hprepare
    have hevolves := (evolves_marked l₂ job.id job.target.filename c).trans (evolves_concluded hw.lead.running)
    exact ⟨job'.id, _, rfl, m', hw.concluded hc hc', hw.kept,
      Nat.lt_of_lt_of_le hw.lead.inRange hevolves.graph.size, hw.twin⟩

end Matched

end Loader
end ModGraph
