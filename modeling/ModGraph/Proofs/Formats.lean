import ModGraph.Proofs.Rereading
import ModGraph.Proofs.ShippedCompilers

/-!
# Formats

The compiler of a file sets the format of its module: by the extension, or for `.js` files by the mode of
the package and the text (`CompilerTable.forms_standard`). What comes after that in the compiler's task does
not change it (`Task.Forms`), and neither does what the module asks for, as nested loads leave modules in
progress alone (`Loader.Writes.runTask`).
-/

namespace ModGraph

open Json (Value)
open Loader (Job)
open Source (Statement Program)

/-! ## What tasks leave behind -/

namespace Task

variable {program : Except LoadError Program} {good : Format → Value → Prop} {format : Format} {exports : Value}
  {next : Task}

/-- A task that begins with a format and exports, and comes to its end, leaves good ones. -/
def Forms (program : Except LoadError Program) (good : Format → Value → Prop) (format : Format)
    (exports : Value) : Task → Prop
  | .done => good format exports
  | .fail _ => True
  | .setFormat format' next => next.Forms program good format' exports
  | .report _ next => next.Forms program good format exports
  | .readSource next => ∀ source, (next source).Forms program good format exports
  | .readProgram next => ∀ p, program = .ok p → (next p).Forms program good format exports
  | .require _ next => ∀ d, (next d).Forms program good format exports
  | .setExports v next => next.Forms program good format v
  | .setExport name v next => next.Forms program good format (exports.set name v)

theorem forms_requireAll (requests : List String) (h : next.Forms program good format exports) :
    (requireAll requests next).Forms program good format exports := by
  induction requests with
  | nil => exact h
  | cons request rest ih => exact fun _ => ih

theorem forms_assign (name : Option String) (v : Value) (h : ∀ x, next.Forms program good format x) :
    (assign name v next).Forms program good format exports := by
  cases name <;> exact h _

variable (cx : CompileContext)

theorem forms_evaluateLegacy (h : ∀ x, good format x) (statements : List Statement) (exports : Value) :
    (evaluateLegacy cx statements).Forms program good format exports := by
  induction statements generalizing exports with
  | nil => exact h _
  | cons first rest ih =>
    unfold evaluateLegacy
    split
    · exact h _
    · next heq =>
      cases heq
      exact forms_assign _ _ ih
    · next heq =>
      cases heq
      exact fun d => forms_assign _ _ ih
    · next heq =>
      cases heq
      exact fun _ => ih _
    · trivial
    · next heq =>
      cases heq
      exact ih _

theorem forms_evaluateDeclarative (h : ∀ x, good format x) (statements : List Statement) (exports : Value) :
    (evaluateDeclarative cx statements).Forms program good format exports := by
  induction statements generalizing exports with
  | nil => exact h _
  | cons first rest ih =>
    unfold evaluateDeclarative
    split
    · exact h _
    · next heq =>
      cases heq
      exact ih _
    · trivial
    · next heq =>
      cases heq
      exact ih _

/-- In a parse-only pass legacy modules export nothing. -/
theorem forms_runLegacy (h : ∀ x, (cx.parsing = true → x = exports) → good .legacy x) (p : Program) :
    (runLegacy cx p).Forms program good format exports := by
  show Forms program good .legacy exports _
  split
  · trivial
  · split
    · exact forms_requireAll _ (h _ fun _ => rfl)
    · next hp => exact forms_evaluateLegacy cx (fun x => h x fun hparsing => absurd hparsing hp) _ _

theorem forms_runDeclarative (h : ∀ x, (cx.parsing = true → x = exports) → good .declarative x) (p : Program) :
    (runDeclarative cx p).Forms program good format exports := by
  show Forms program good .declarative exports _
  split
  · trivial
  · apply forms_requireAll
    split
    · exact h _ fun _ => rfl
    · next hp => exact forms_evaluateDeclarative cx (fun x => h x fun hparsing => absurd hparsing hp) _ _

end Task

/-- What a compiler should leave behind: a format as the file demands, and in a parse-only pass no exports
that were not there before, unless the file is its own value. -/
def CompileContext.Formed (cx : CompileContext) (program : Except LoadError Program) (before : Value)
    (format : Format) (exports : Value) : Prop :=
  (format = .declarative ↔ IsDeclarative cx.filename cx.mode program) ∧
    (cx.parsing = true → exports = before ∨ cx.filename.extension = some "json")

/-- The compilers that come with the loader make exactly those files declarative that should be. -/
theorem CompilerTable.forms_standard (cx : CompileContext) (program : Except LoadError Program)
    (format : Format) (exports : Value) :
    ((standard.forPath cx.filename).task cx).Forms program (cx.Formed program exports) format exports := by
  have hdecl : IsDeclarative cx.filename cx.mode program →
      ∀ x, (cx.parsing = true → x = exports) → cx.Formed program exports .declarative x :=
    fun hc _ hx => ⟨⟨fun _ => hc, fun _ => rfl⟩, fun hp => .inl (hx hp)⟩
  have hleg : ¬ IsDeclarative cx.filename cx.mode program →
      ∀ x, (cx.parsing = true → x = exports) → cx.Formed program exports .legacy x :=
    fun hc _ hx => ⟨⟨(nomatch ·), fun h => absurd h hc⟩, fun hp => .inl (hx hp)⟩
  refine task_standard cx program (fun _ _ h => h) (fun _ _ h => h)
    (fun _ h p _ => Task.forms_runDeclarative cx (hdecl h) p) (fun _ h p _ => Task.forms_runLegacy cx (hleg h) p)
    (fun hjson source => ?_) fun _ => trivial
  dsimp only
  cases Json.Value.read source.toList with
  | ok v => exact ⟨⟨(nomatch ·), fun h => by simp [IsDeclarative, hjson] at h⟩, fun _ => .inr hjson⟩
  | error fault => trivial

namespace Loader

variable {l l' : Loader} {packages : Path → PackageContext} {programs : Path → Except LoadError Program}
  {job : Job} {format format' : Format} {exports exports' : Value} {paths : List Path} {limit : Nat}

/-! ## Running tasks -/

/-- The module of a job is being compiled, with these search paths, and its entry has a format and exports so
far. -/
structure Writes (packages : Path → PackageContext) (programs : Path → Except LoadError Program) (job : Job)
    (format : Format) (exports : Value) (paths : List Path) (l : Loader) : Prop
    extends Consistent l, Rereadable packages programs l where
  running : l.InProgress job.target.key job.partition job.id
  filename : (l.graph.entry job.id).module.filename = job.target.filename
  package : (l.graph.entry job.id).package = job.target.package
  format : (l.graph.entry job.id).format = format
  exports : (l.graph.entry job.id).module.exports = exports
  paths : (l.graph.entry job.id).module.paths = paths

namespace Writes

/-- The entry is as it was, or as the compiler left it. -/
theorem of_safely (h : l.Writes packages programs job format exports paths)
    (hsafe : Safely (some job) (Rereadable.Lasts packages programs) l l')
    (hfile : (l'.graph.entry job.id).module.filename = (l.graph.entry job.id).module.filename)
    (hpackage : (l'.graph.entry job.id).package = (l.graph.entry job.id).package)
    (hformat : (l'.graph.entry job.id).format = format')
    (hexports : (l'.graph.entry job.id).module.exports = exports')
    (hpaths : (l'.graph.entry job.id).module.paths = (l.graph.entry job.id).module.paths) :
    l'.Writes packages programs job format' exports' paths := by
  obtain ⟨hs, hr⟩ := hsafe h.toConsistent (by rintro _ ⟨⟩; exact h.running)
  exact { hs.consistent, hr h.toRereadable with
    running := (hs.progress _ _ _).mpr h.running
    filename := hfile.trans h.filename
    package := hpackage.trans h.package
    format := hformat
    exports := hexports
    paths := hpaths.trans h.paths }

theorem of_graph (h : l.Writes packages programs job format exports paths)
    (hsafe : Safely (some job) (Rereadable.Lasts packages programs) l l') (hg : l'.graph = l.graph) :
    l'.Writes packages programs job format exports paths := by
  refine h.of_safely hsafe ?_ ?_ ?_ ?_ ?_
  · rw [hg]
  · rw [hg]
  · rw [hg]
    exact h.format
  · rw [hg]
    exact h.exports
  · rw [hg]

/-- What a nested load does, it does to other entries. -/
theorem of_spared (h : l.Writes packages programs job format exports paths)
    (hsafe : Safely none (Rereadable.Lasts packages programs) l l') :
    l'.Writes packages programs job format exports paths := by
  have hspared := hsafe.spared h.toConsistent
  have hholds : l.Holds job.id := ⟨(h.keyed h.running rfl).1, .inr ⟨_, _, h.running⟩⟩
  have hentry := hspared.entry hholds not_false
  exact h.of_safely hsafe.mono (by rw [hentry.module]) hentry.package (hentry.format.trans h.format)
    ((congrArg Module.exports hentry.module).trans h.exports) (by rw [hentry.module])

/-- The compiler writes to the entry. -/
theorem update (h : l.Writes packages programs job format exports paths) {f : Entry → Entry}
    (hf : ∀ e : Entry, e.Retains (f e))
    (hfile : ∀ e : Entry, (f e).module.filename = e.module.filename)
    (hpaths : ∀ e : Entry, (f e).module.paths = e.module.paths)
    (hformat : (f (l.graph.entry job.id)).format = format')
    (hexports : (f (l.graph.entry job.id)).module.exports = exports') :
    ({ l with graph := l.graph.update job.id f } : Loader).Writes packages programs job format' exports' paths := by
  have hself : (l.graph.update job.id f).entry job.id = f (l.graph.entry job.id) :=
    Graph.entry_update_self _ _ (h.keyed h.running rfl).1
  have hsafe : Safely (some job) (Rereadable.Lasts packages programs) l
      { l with graph := l.graph.update job.id f } := by
    intro hc hown
    have hspares : Compiles job.id (Spares fun id => ∃ j ∈ some job, j.id = id) := Spares.compiles ⟨job, rfl, rfl⟩
    exact ⟨hspares.updateEntry hf l hc, Rereadable.loads.write hc (hown job rfl) hf⟩
  refine h.of_safely hsafe ?_ ?_ ?_ ?_ ?_
  · exact (congrArg (·.module.filename) hself).trans (hfile _)
  · exact (congrArg Entry.package hself).trans (hf _).package
  · exact (congrArg Entry.format hself).trans hformat
  · exact (congrArg (·.module.exports) hself).trans hexports
  · exact (congrArg (·.module.paths) hself).trans (hpaths _)

/-- A task that comes to its end leaves the module with a good format and good exports. -/
theorem runTask {t : Task} {good : Format → Value → Prop} (h : l.Writes packages programs job format exports paths)
    (hkey : keyFile job.target.key = job.target.filename)
    (ht : t.Forms (programs job.target.filename) good format exports)
    (hrun : l.run (Loader.runTask (loadNested limit) job.id job.target.filename t) = (.ok (), l')) :
    ∃ format' exports', good format' exports' ∧ l'.Writes packages programs job format' exports' paths := by
  have hcanonical : job.target.filename.Canonical :=
    hkey ▸ h.canonical (Cache.get?_of_slot? h.running)
  have hcompiles := (@Rereadable.loads packages programs).compiles hkey
  induction t generalizing l format exports with
  | done =>
    cases hrun
    exact ⟨format, exports, ht, h⟩
  | fail e => cases hrun
  | setFormat format' next ih =>
    rw [Loader.runTask, run_bind, run_setFormat, andThen_ok, h.unfinished h.running] at hrun
    have hmodule : ∀ e : Entry, (e.setFormat format').module = e.module := fun e => by
      unfold Entry.setFormat
      split <;> rfl
    refine ih (h.update (fun e => .setFormat e format') (fun e => by rw [hmodule])
      (fun e => by rw [hmodule]) ?_ ?_) ht hrun
    · simp [Entry.setFormat, h.unfinished h.running]
    · rw [hmodule]
      exact h.exports
  | report event next ih =>
    exact ih (h.of_graph (Rereadable.loads.noted l event) rfl) ht hrun
  | readSource next ih =>
    obtain ⟨source, l₁, hsource, hrest⟩ := run_bind_eq_ok.mp hrun
    have hl₁ : l₁ = (l.run (sourceOf job.target.filename)).2 := by rw [hsource]
    subst hl₁
    exact ih source (h.of_graph (hcompiles.source l) (Quiet.reading.source _ l).graph) (ht source) hrest
  | readProgram next ih =>
    obtain ⟨p, l₁, hprogram, hrest⟩ := run_bind_eq_ok.mp hrun
    have hl₁ : l₁ = (l.run (programOf job.target.filename)).2 := by rw [hprogram]
    have hp : programs job.target.filename = .ok p := by
      rw [← h.recites.programOf hcanonical, hprogram]
    subst hl₁
    exact ih p (h.of_graph (hcompiles.program l) (Quiet.reading.program _ l).graph) (ht p hp) hrest
  | require request next ih =>
    obtain ⟨child, l₁, hnested, hrest⟩ := run_bind_eq_ok.mp hrun
    have hsafe := (@Rereadable.loads packages programs).loadNested limit request job.id l
    rw [hnested] at hsafe
    exact ih _ (h.of_spared hsafe) (ht _) hrest
  | setExports v next ih =>
    exact ih (h.update (f := (Entry.setExports · v)) (fun e => ⟨rfl, rfl, rfl, rfl, rfl, rfl⟩) (fun e => rfl)
      (fun e => rfl) h.format rfl) ht hrun
  | setExport name v next ih =>
    have hexports : ((l.graph.entry job.id).setExport name v).module.exports = exports.set name v :=
      congrArg (·.set name v) h.exports
    exact ih (h.update (f := (Entry.setExport · name v)) (fun e => ⟨rfl, rfl, rfl, rfl, rfl, rfl⟩) (fun e => rfl)
      (fun e => rfl) h.format hexports) ht hrun

end Writes

/-! ## Compiling -/

/-- The search paths of an entry at the beginning of a compilation: those that it has, if any. -/
def initialPaths (l : Loader) (id : EntryId) (filename : Path) : List Path :=
  let e := l.graph.entry id
  if e.module.paths.isEmpty then searchPaths l.resolver e.package e.format filename else e.module.paths

/-- The beginning of a compilation sets at most the file of the module and its search paths. -/
theorem entry_begun_self (l : Loader) {id : EntryId} (filename : Path) (h : id < l.graph.size) :
    (l.begun id filename).graph.entry id = { l.graph.entry id with
      module := { (l.graph.entry id).module with
        filename := filename
        paths := l.initialPaths id filename } } := by
  unfold begun initialPaths
  dsimp only
  split
  · rw [Graph.entry_update_self _ _ (by simpa using h), Graph.entry_update_self _ _ h]
    rfl
  · rw [Graph.entry_update_self _ _ h]

/-- A module begins to write to its entry as that was. -/
theorem Due.writes_begun (hc : l.Consistent) (hd : l.Due job) (hr : l.Rereadable packages programs)
    (hpackage : (l.graph.entry job.id).package = job.target.package) :
    ((l.occupied job).begun job.id job.target.filename).Writes packages programs job
      (l.graph.entry job.id).format (l.graph.entry job.id).module.exports
      (l.initialPaths job.id job.target.filename) := by
  have hsafe := ((@Rereadable.loads packages programs).compiles hd.keyFile_key).beginCompile (l.occupied job)
  rw [run_beginCompile] at hsafe
  obtain ⟨hspared, hbegun⟩ := hsafe (hd.ready.consistent_occupied hc) hd.ready.own_occupied
  obtain ⟨name, hname⟩ := named_occupied l job job.id
  have hentry := (l.occupied job).entry_begun_self job.target.filename ((size_occupied l job).symm ▸ hd.ready.inRange)
  have hpaths : (l.occupied job).initialPaths job.id job.target.filename
      = l.initialPaths job.id job.target.filename := by
    unfold initialPaths
    rw [hname]
    unfold Loader.occupied
    split <;> rfl
  rw [hpaths] at hentry
  exact { hspared.consistent, hbegun (hr.occupied hd) with
    running := (hspared.progress _ _ _).mpr ((hd.ready.slot?_occupied _).trans (if_pos rfl))
    filename := by rw [hentry]
    package := by rw [hentry, hname]; exact hpackage
    format := by rw [hentry, hname]
    exports := by rw [hentry, hname]
    paths := by rw [hentry] }

/-- A compiler starts as the table says. -/
theorem compilation_occupied (l : Loader) (job : Job) : (l.occupied job).compilation job.id job.target.filename =
    ⟨(l.graph.entry job.id).format, l.cache.parsing, (l.compilers.forPath job.target.filename).task
      ⟨job.target.filename, (l.graph.entry job.id).package.options.mode, l.cache.parsing⟩⟩ := by
  obtain ⟨name, hname⟩ := named_occupied l job job.id
  have hsame : (l.occupied job).compilers = l.compilers ∧ (l.occupied job).cache.parsing = l.cache.parsing := by
    unfold occupied
    split <;> simp
  simp only [compilation, hname, hsame]

/-- A module that was compiled has the format that its extension, its package and its program give it, and
after a parse-only pass it exports what it did before, or its file's value. -/
theorem Due.writes_of_prepare {c : Compilation} (hc : l.Consistent) (hd : l.Due job)
    (hr : l.Rereadable packages programs) (hcompilers : l.compilers = .standard)
    (hpackage : (l.graph.entry job.id).package = job.target.package)
    (hrun : (l.occupied job).run (prepare (loadNested limit) job.id job.target.filename) = (.ok c, l')) :
    ∃ format exports paths, l'.Writes packages programs job format exports paths ∧
      CompileContext.Formed ⟨job.target.filename, job.target.package.options.mode, l.cache.parsing⟩
        (programs job.target.filename) (l.graph.entry job.id).module.exports format exports := by
  obtain ⟨rfl, htask⟩ := compiled_of_prepare hrun
  -- the compiler that takes the file makes a task that leaves the right format
  have hforms := CompilerTable.forms_standard ⟨job.target.filename, job.target.package.options.mode,
    l.cache.parsing⟩ (programs job.target.filename) (l.graph.entry job.id).format
    (l.graph.entry job.id).module.exports
  rw [compilation_occupied, hcompilers, hpackage] at htask
  obtain ⟨format, exports, hgood, hw⟩ := (hd.writes_begun hc hr hpackage).runTask hd.keyFile_key hforms htask
  exact ⟨format, exports, _, hw, hgood⟩

end Loader
end ModGraph
