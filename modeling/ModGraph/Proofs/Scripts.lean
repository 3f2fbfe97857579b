import ModGraph.Command
import ModGraph.Proofs.NestedErrors
import ModGraph.Proofs.Permanence
import ModGraph.Proofs.Renewal
import ModGraph.Proofs.ResolvedFiles
import ModGraph.Proofs.Views

/-!
# The script of a run

The command turns the path of its script into a request. A request is cut where a query begins, may name a builtin
module, and is resolved to a file; then the file is compiled, before anything else. If no query mark stands in the
absolute path, the file at the path is what is compiled: a run shows the tree whose root is the module of this file, or
it reports an error that came up while the file was compiled, and never that the script was not found
(`Command.loads_script`). A name with a query mark, which files may well have, is cut like any other request, and the
script is lost (`Command.lost_script`).
-/

namespace ModGraph

/-! ## Absolute paths -/

/-- A path that is seen from an absolute directory is absolute. -/
theorem Path.isAbsolute_of_absolute? {p dir path : Path} (hdir : dir.isAbsolute = true)
    (h : p.absolute? dir = some path) : path.isAbsolute = true := by
  have hfold : ∀ (cs : List Component) (base : Path), base.isAbsolute = true →
      (cs.foldl (fun p c => p.join ⟨String.ofList c.chars⟩) base).isAbsolute = true := by
    intro cs
    induction cs with
    | nil => exact fun _ hbase => hbase
    | cons c cs ih => exact fun base hbase => ih _ (isAbsolute_join hbase _)
  obtain ⟨base, hbase, rfl⟩ := Option.map_eq_some_iff.mp h
  have habsolute : base.isAbsolute = true := by
    split at hbase
    · cases hbase
    · cases hbase
      decide
    · cases hbase
      split <;> decide
    · cases hbase
      decide
    · cases hbase
      exact hdir
  dsimp only
  split
  · exact isAbsolute_join (hfold _ _ habsolute) _
  · exact hfold _ _ habsolute

namespace Loader

variable {l l' : Loader} {job : Job} {limit : Nat} {id : EntryId} {file : Path} {e : LoadError}

/-! ## The file of a module -/

/-- A module that was compiled has the file for which its compiler was started. -/
theorem Lone.filename_of_perform (hl : l.Lone job) (hs : l.Sole)
    (hrun : l.run (perform (loadNested limit) job) = (.ok id, l')) :
    (l'.graph.entry id).module.filename = job.target.filename := by
  let P (l : Loader) : Prop := l.Sole ∧ l.Loading job.partition job.target.key job.id
  have hkept : ∀ {own asking : EntryId → Prop} {l l' : Loader}, Freezes own asking l l' → P l → P l' :=
    fun h hP => ⟨(h hP.1).sole, ((h hP.1).loading _ _ _).mpr hP.2⟩
  have hfreezes : Compiles job.id (Freezes (· = job.id) fun _ => False) := Freezes.compiles rfl
  have hnested : ∀ request, Follows (fun l l' => P l → P l' ∧ (l.graph.entry job.id).Stays (l'.graph.entry job.id))
      (loadNested limit request job.id) := by
    intro request l hP
    have hfrozen := Freezes.loadNested limit request job.id l
    have htaken : l.Taken job.id := ⟨hP.1.slot hP.2 rfl, .inr ⟨_, _, hP.2⟩⟩
    exact ⟨hkept hfrozen hP, ((hfrozen hP.1).entry htaken not_false).stays⟩
  have hoccupied : P (l.occupied job) :=
    ⟨hs.occupied hl, (get?_occupied l job _ _).trans (if_pos ⟨rfl, rfl⟩)⟩
  have hinRange : job.id < (l.occupied job).graph.size := hoccupied.1.slot hoccupied.2 rfl
  rw [Balanced.run_perform (Balanced.loadNested limit) hs.toGrounded hl.toVacant] at hrun
  generalize hr : (l.occupied job).run (prepare (loadNested limit) job.id job.target.filename) = r at hrun
  obtain ⟨e | c, l₂⟩ := r
  · cases hrun
  · cases hrun
    obtain ⟨hg₂, hin⟩ := Balanced.loading_of_prepare (Balanced.loadNested limit) hs.toGrounded hl.toVacant hr
    have hstays := hfreezes.stays_of_prepare Freezes.report hkept hnested hoccupied hr
    have hbegun := congrArg (·.module.filename) ((l.occupied job).entry_begun_self job.target.filename hinRange)
    have hmarked := entry_marked_self l₂ job.target.filename c (hg₂.slot hin rfl)
    obtain ⟨paths, -, heq⟩ := (l₂.graph.entry job.id).marked_eq l₂.resolver job.target.filename c
    have hconcluded := entry_concluded (l₂.marked job.id job.target.filename c) job job.id
    rw [hconcluded.module, hmarked, heq]
    exact hstays.filename.trans hbegun

/-! ## The first module -/

/-- A loader in which there are no slots yet. -/
structure Unused (l : Loader) : Prop extends Sole l where
  shipped : l.compilers.Shipped
  vacant : ∀ p key, l.cache.get? p key = none

theorem Unused.attributed (h : l.Unused) : l.Attributed :=
  { h.toGrounded with
    shipped := h.shipped
    poisoned := fun {p key e} he => by
      rw [h.vacant] at he
      cases he }

theorem Unused.withParsing (h : l.Unused) (parsing : Bool) : (l.withParsing parsing).Unused :=
  have hfrozen : Frozen (fun _ => False) (fun _ => False) l (l.withParsing parsing) :=
    Freezes.withParsing l parsing h.toSole
  { hfrozen.sole with
    shipped := h.shipped
    vacant := fun p key => by
      have hget : (l.withParsing parsing).cache.get? p key = l.cache.get? p key := by cases p <;> rfl
      exact hget.trans (h.vacant p key) }

theorem unused_ofConfig (c : Config) (fs : FileSystem) : (ofConfig c fs).Unused :=
  { sole_of_empty rfl with
    shipped := CompilerTable.shipped_standard
    vacant := fun p key => by cases p <;> rfl }

end Loader

namespace Moment

open Loader

/-- What the compilation of a file gives: a module with this file, or an error that is not about a request from
outside. -/
def Gives (file : Path) : Except LoadError EntryId × Loader → Prop
  | (.ok id, l) => (l.graph.entry id).module.filename = file
  | (.error e, _) => e.Attributed

/-- Whatever file the first request leads to is compiled. -/
theorem gives_of_resolved {m : Moment} {file : Path} (hl : m.loader.Unused)
    (hr : m.loader.resolved m.request m.parent m.isMain = .ok (.file file)) :
    ∃ job l, m.loader.run (do
        Loader.report (.enters m.request .resolving)
        Loader.seek m.request m.parent m.isMain) = (.ok (.needs job), l) ∧ job.target.filename = file ∧
      Gives file (l.run (perform (loadNested m.limit) job)) := by
  let l₀ := m.loader.noted [.enters m.request .resolving]
  have hl₀ : l₀.Sole := ⟨⟨hl.slot, hl.builtin⟩, hl.unfinished, hl.single⟩
  have hattributed : l₀.Attributed :=
    hl.attributed.of_unspoilt hl₀.toGrounded rfl (.of_cache rfl)
  obtain ⟨job, l₁, hseek, -, htarget⟩ := run_seek_of_absent (l := l₀) hr fun p => hl.vacant p _
  have hfile : job.target.filename = file := congrArg Target.filename htarget
  refine ⟨job, l₁, run_seeking m ▸ hseek, hfile, ?_⟩
  obtain ⟨hlone, -⟩ := lone_of_seek hl₀ hseek
  have hsought : Frozen (fun _ => False) (· ∈ m.parent) l₀ _ := Freezes.seek (fun _ h => h) m.request m.isMain l₀ hl₀
  have hattributed₁ := Attributed.follows_seek m.request m.parent m.isMain l₀ hattributed
  rw [hseek] at hsought hattributed₁
  have hperform := hattributed₁.keeps_perform (Attributed.keeps_loadNested m.limit) hlone.toVacant
  have hname : ∀ id l', l₁.run (perform (loadNested m.limit) job) = (.ok id, l') → _ :=
    fun id l' => hlone.filename_of_perform hsought.sole
  generalize l₁.run (perform (loadNested m.limit) job) = r at hperform hname ⊢
  obtain ⟨e | id, l'⟩ := r
  · exact hperform.2
  · exact (hname _ _ rfl).trans hfile

end Moment

/-! ## Runs -/

namespace Command

variable {c : Command} {env : Environment} {fs : FileSystem} {config : Config} {request : String} {path : Path}

/-- What the command asks a loader for. -/
def operation (c : Command) (request : String) : Operation :=
  if c.parseOnly then .discover request none else .load request none true

/-- The first thing that a run comes to is a module that has to be compiled. -/
structure Begins (c : Command) (env : Environment) (fs : FileSystem) (start : Loader) (request : String) (m : Moment)
    (job : Loader.Job) (l : Loader) : Prop where
  loader : ∃ config, c.config env fs = .ok config ∧ start = .ofConfig config fs
  asked : c.request fs = .ok request
  moment : start.beginning? (c.operation request) = some m
  sought : m.loader.run (do
    Loader.report (.enters m.request .resolving)
    Loader.seek m.request m.parent m.isMain) = (.ok (.needs job), l)

/-- A run loads a file: the file is compiled first of all, and the run ends as its compilation does. If that succeeds
the tree is shown whose root has this file; otherwise the error of the compilation is reported, and this error is not
that a request from outside led nowhere. -/
def Loads (c : Command) (env : Environment) (fs : FileSystem) (file : Path) : Prop :=
  ∃ start request m job l, c.Begins env fs start request m job l ∧ job.target.filename = file ∧
    (start.run (c.loadMain request)).1 = (l.run (Loader.perform (Loader.loadNested m.limit) job)).1 ∧
    match start.run (c.loadMain request) with
    | (.ok root, l) => c.run env fs = .ok (c.output l root) ∧ (l.graph.entry root).module.filename = file
    | (.error e, _) => c.run env fs = .error (explain e.chain) ∧ ∀ request, e ≠ .moduleNotFound request none

/-- The loader answers from the moment at which the run begins. -/
theorem loadMain_of_beginning {start : Loader} {m : Moment} (h : start.beginning? (c.operation request) = some m) :
    (start.run (c.loadMain request)).1 = (m.loader.run m.action).1 ∧
    (start.run (c.loadMain request)).2.graph = (m.loader.run m.action).2.graph := by
  obtain ⟨-, -, hgraph, -⟩ := Loader.graph_after_of_beginning h
  unfold operation at h hgraph
  unfold loadMain
  split at h
  · next hparse =>
    rw [if_pos hparse] at hgraph ⊢
    cases h
    refine ⟨?_, hgraph⟩
    rw [Loader.run_discover, Loader.run_load_eq]
  · next hparse =>
    rw [if_neg hparse] at hgraph ⊢
    cases h
    exact ⟨by rw [Loader.run_load_eq], hgraph⟩

/-- A run shows what was loaded, or the error with which the load ended. -/
theorem run_eq (hconfig : c.config env fs = .ok config) (hrequest : c.request fs = .ok request) :
    c.run env fs = match (Loader.ofConfig config fs).run (c.loadMain request) with
      | (.ok root, l) => .ok (c.output l root)
      | (.error e, _) => .error (explain e.chain) := by
  unfold run
  rw [hconfig, hrequest]
  rfl

/-- A run begins with the request for its script, in a loader without modules. -/
theorem exists_beginning (c : Command) (config : Config) (fs : FileSystem) (request : String) :
    ∃ m, (Loader.ofConfig config fs).beginning? (c.operation request) = some m ∧ m.request = request ∧
      m.parent = none ∧ m.loader.resolver = .ofConfig config ∧ m.loader.files = fs ∧ m.loader.Unused := by
  unfold operation
  split
  · exact ⟨_, rfl, rfl, rfl, rfl, rfl, (Loader.unused_ofConfig config fs).withParsing true⟩
  · exact ⟨_, rfl, rfl, rfl, rfl, rfl, Loader.unused_ofConfig config fs⟩

/-- The file to which the request for the script leads is loaded. -/
theorem loads_of_resolved {m : Moment} {file : Path} (hconfig : c.config env fs = .ok config)
    (hrequest : c.request fs = .ok request)
    (hm : (Loader.ofConfig config fs).beginning? (c.operation request) = some m) (hunused : m.loader.Unused)
    (hr : m.loader.resolved m.request m.parent m.isMain = .ok (.file file)) : c.Loads env fs file := by
  obtain ⟨job, l, hsought, hfile, hgives⟩ := Moment.gives_of_resolved hunused hr
  obtain ⟨hresult, hgraph⟩ := loadMain_of_beginning hm
  have hrun := run_eq hconfig hrequest
  refine ⟨_, request, m, job, l, ⟨⟨config, hconfig, rfl⟩, hrequest, hm, hsought⟩, hfile, ?_⟩
  rw [Moment.run_action, hsought] at hresult hgraph
  dsimp only at hresult hgraph
  generalize (Loader.ofConfig config fs).run (c.loadMain request) = main at hresult hgraph hrun ⊢
  obtain ⟨result, l'⟩ := main
  generalize l.run (Loader.perform (Loader.loadNested m.limit) job) = r at hgives hresult hgraph ⊢
  obtain ⟨e | root, l₂⟩ := r
  · obtain rfl : result = .error e := hresult
    exact ⟨rfl, hrun, hgives⟩
  · obtain rfl : result = .ok root := hresult
    refine ⟨rfl, hrun, ?_⟩
    rw [show l'.graph = l₂.graph from hgraph]
    exact hgives

/-- The configuration of a run for which no file is given. -/
theorem config_eq (h : c.configFile = none) : c.config env fs = .ok { Config.default env with
    preserveSymlinks := c.preserveSymlinks
    cacheDir := c.cacheDir.or none } := by
  unfold config
  rw [h]
  rfl

/-- A path without query marks that names a file leads to this file, if links are not to be preserved. -/
theorem resolution_of_absolute {r : Resolver} {loc : Location} {content : ByteArray} {isMain : Bool}
    (hfind : fs.find path = .ok (loc, .file content)) (habsolute : path.isAbsolute = true)
    (hbuiltins : path.text ∉ r.builtins) (hpreserve : ∀ q, r.preserves q = false) :
    Loader.resolution r fs path.text none isMain = .ok (.file loc.path) := by
  unfold Loader.resolution
  dsimp only
  rw [Resolver.resolve_of_absolute hfind habsolute hbuiltins rfl (hpreserve _)]

/-- With the default configuration a run loads the file at the absolute path of its script, wherever links lead from
there, if no query mark stands in this path. -/
theorem loads_script (hconfig : c.configFile = none) (hlinks : c.preserveSymlinks = false)
    (hpath : c.script.absolute? fs.workingPath = some path) (hfile : fs.isFile path = true)
    (hmarks : Unmarked path.text) : ∃ real, fs.realPath path = .ok real ∧ c.Loads env fs real := by
  obtain ⟨loc, content, hfind⟩ := FileSystem.find_of_isFile hfile
  have hreal : fs.realPath path = .ok loc.path := by
    unfold FileSystem.realPath
    rw [hfind]
    rfl
  have hworking : fs.workingPath.isAbsolute = true :=
    Path.isAbsolute_iff.mpr (congrArg List.head? (Path.toList_ofNames true fs.workingDirectory.reverse))
  have habsolute := Path.isAbsolute_of_absolute? hworking hpath
  have hrequest : c.request fs = .ok path.text := by
    unfold request
    rw [hpath]
  have hbuiltins : path.text ∉ builtinModules := by
    intro hmem
    have hnames : ∀ name ∈ builtinModules, (⟨name⟩ : Path).isAbsolute = false := by decide
    rw [hnames _ hmem] at habsolute
    cases habsolute
  refine ⟨loc.path, hreal, ?_⟩
  obtain ⟨m, hm, hrequested, hparent, hresolver, hfiles, hunused⟩ := exists_beginning c { Config.default env with
    preserveSymlinks := c.preserveSymlinks
    cacheDir := c.cacheDir.or none } fs path.text
  refine loads_of_resolved (config_eq hconfig) hrequest hm hunused ?_
  rw [hrequested, hparent, Loader.resolved, hresolver, hfiles, splitQuery_of_unmarked hmarks]
  refine resolution_of_absolute hfind habsolute hbuiltins fun q => ?_
  cases q
  simp [Resolver.preserves, Resolver.ofConfig, Config.default, hlinks]

/-- A script behind a link, in a file with a name that takes some care. -/
def linkedFiles : FileSystem where
  nodes := ⟨[
    (["app"], .directory),
    (["lib", "app"], .directory),
    (["node:fs %20.js", "lib", "app"], .file "exports.n = 1".toUTF8),
    (["main.js", "app"], .link "lib/node:fs %20.js")]⟩
  workingDirectory := ["app"]

/-- Show the modules of `linkedFiles`. -/
def linked : Command := ⟨⟨"main.js"⟩, false, none, none, false, false, false⟩

theorem loads_linked : linked.script.absolute? linkedFiles.workingPath = some ⟨"/app/main.js"⟩ ∧
    linkedFiles.isFile ⟨"/app/main.js"⟩ = true ∧
    linkedFiles.realPath ⟨"/app/main.js"⟩ = .ok ⟨"/app/lib/node:fs %20.js"⟩ ∧
    linked.Loads ⟨none, none⟩ linkedFiles ⟨"/app/lib/node:fs %20.js"⟩ := by
  have hpath : linked.script.absolute? linkedFiles.workingPath = some ⟨"/app/main.js"⟩ := by decide +kernel
  have hfile : linkedFiles.isFile ⟨"/app/main.js"⟩ = true := by decide +kernel
  have hreal : linkedFiles.realPath ⟨"/app/main.js"⟩ = .ok ⟨"/app/lib/node:fs %20.js"⟩ := by decide +kernel
  obtain ⟨real, hreal', hloads⟩ := @loads_script linked ⟨none, none⟩ linkedFiles _ rfl rfl hpath hfile (by decide)
  cases hreal.symm.trans hreal'
  exact ⟨hpath, hfile, hreal, hloads⟩

/-! ## Names with query marks -/

/-- A file with a query mark in its name. -/
def markedFiles : FileSystem where
  nodes := ⟨[(["app"], .directory), (["a?b.js", "app"], .file "exports.v = 1".toUTF8)]⟩
  workingDirectory := ["app"]

/-- Show the modules of `markedFiles`. -/
def marked : Command := ⟨⟨"a?b.js"⟩, false, none, none, false, false, false⟩

/-- The script is there, and the command says that it cannot be found. -/
theorem lost_script : marked.configFile = none ∧ marked.preserveSymlinks = false ∧
    marked.script.absolute? markedFiles.workingPath = some ⟨"/app/a?b.js"⟩ ∧
    markedFiles.isFile ⟨"/app/a?b.js"⟩ = true ∧
    marked.run ⟨none, none⟩ markedFiles = .error "Cannot find module '/app/a' imported from <root>" ∧
    ∀ file, ¬ marked.Loads ⟨none, none⟩ markedFiles file := by
  refine ⟨rfl, rfl, by decide +kernel, by decide +kernel, by decide +kernel, fun file hloads => ?_⟩
  obtain ⟨start, request, m, job, l, ⟨⟨config, hconfig, rfl⟩, hrequest, -, -⟩, -, -, hends⟩ := hloads
  have hrequest' : marked.request markedFiles = .ok "/app/a?b.js" := by decide +kernel
  have hconfig' : marked.config ⟨none, none⟩ markedFiles = .ok (.default ⟨none, none⟩) := by decide +kernel
  cases hrequest'.symm.trans hrequest
  cases hconfig'.symm.trans hconfig
  have hlost : ((Loader.ofConfig (.default ⟨none, none⟩) markedFiles).run (marked.loadMain "/app/a?b.js")).1
      = .error (.moduleNotFound "/app/a" none) := by decide +kernel
  generalize (Loader.ofConfig (.default ⟨none, none⟩) markedFiles).run (marked.loadMain "/app/a?b.js") = main
    at hends hlost
  obtain ⟨result, l'⟩ := main
  obtain rfl : result = .error (.moduleNotFound "/app/a" none) := hlost
  exact hends.2 "/app/a" rfl

end Command
end ModGraph
