import ModGraph.Loader.State

/-!
# Compiling a module

Running a compiler's task on an entry. The task may ask for other modules; how these are loaded is a
parameter, `nested`, so that the recursion of loading is tied elsewhere. A task is run by recursion on
its instructions.
-/

namespace ModGraph

open Source (Program)

/-- A way to load what a module asks for: the request, and the entry that makes it. -/
abbrev NestedLoad := String → EntryId → LoadM EntryId

namespace Loader

/-- Change the format of an entry, unless it is loaded. -/
def setFormat (id : EntryId) (format : Format) : LoadM Unit := do
  let e ← getEntry id
  onlyIf e.isLoaded do report (.keepsFormat e.key)
  updateEntry id fun e => e.setFormat format

/-- What a task learns about a module that it asked for. -/
def dependency (id : EntryId) : LoadM Dependency := do
  let e ← getEntry id
  return ⟨e.key, e.isLoaded, e.module.exports⟩

/-- Run a task on an entry. -/
def runTask (nested : NestedLoad) (id : EntryId) (filename : Path) : Task → LoadM Unit
  | .done => return ()
  | .fail e => throw e
  | .setFormat format next => do
    setFormat id format
    runTask nested id filename next
  | .report event next => do
    report event
    runTask nested id filename next
  | .readSource next => do
    let source ← sourceOf filename
    runTask nested id filename (next source)
  | .readProgram next => do
    let p ← programOf filename
    runTask nested id filename (next p)
  | .require request next => do
    let child ← nested request id
    let d ← dependency child
    runTask nested id filename (next d)
  | .setExports v next => do
    updateEntry id fun e => e.setExports v
    runTask nested id filename next
  | .setExport name v next => do
    updateEntry id fun e => e.setExport name v
    runTask nested id filename next

/-- Run the first instruction of a task, and give what is left of it. -/
def stepTask (nested : NestedLoad) (id : EntryId) (filename : Path) : Task → LoadM (Option Task)
  | .done => return none
  | .fail e => throw e
  | .setFormat format next => do
    setFormat id format
    return some next
  | .report event next => do
    report event
    return some next
  | .readSource next => return some (next (← sourceOf filename))
  | .readProgram next => return some (next (← programOf filename))
  | .require request next => do
    let child ← nested request id
    return some (next (← dependency child))
  | .setExports v next => do
    updateEntry id fun e => e.setExports v
    return some next
  | .setExport name v next => do
    updateEntry id fun e => e.setExport name v
    return some next

/-- A task is run one instruction after the other. -/
theorem runTask_eq (nested : NestedLoad) (id : EntryId) (filename : Path) (t : Task) :
    runTask nested id filename t =
      stepTask nested id filename t >>= fun
        | none => return ()
        | some rest => runTask nested id filename rest := by
  cases t <;> simp [runTask, stepTask]

/-- The folders in which the packages of a module are looked up: for a legacy module with path searching
the global ones too. -/
def searchPaths (r : Resolver) (package : PackageContext) (format : Format) (filename : Path) :
    List Path :=
  if package.options.cjs.paths && format == .legacy then r.legacySearchPaths filename.directory
  else filename.directory.moduleFolders

/-- A compiler at work on an entry. -/
structure Compilation where
  /-- The entry's format before the compiler runs. -/
  format : Format
  /-- Whether a parse-only pass is running. -/
  parsing : Bool
  /-- What the compiler does. -/
  task : Task

/-- Prepare an entry for the compiler of its file: set its file and, the first time, its search paths. -/
def beginCompile (id : EntryId) (filename : Path) : LoadM Compilation := do
  let l ← get
  let before := l.graph.entry id
  updateEntry id fun e => { e with module := { e.module with filename := filename } }
  onlyIf before.module.paths.isEmpty do
    updateEntry id fun e => e.setPaths (searchPaths l.resolver e.package e.format filename)
  report (.compiles filename)
  let parsing := l.cache.parsing
  let cx : CompileContext := ⟨filename, before.package.options.mode, parsing⟩
  return ⟨before.format, parsing, (l.compilers.forPath filename).task cx⟩

/-- Mark an entry as loaded, or as parsed in a parse-only pass. Its search paths follow its format when
the compiler changed that. -/
def endCompile (id : EntryId) (filename : Path) (c : Compilation) : LoadM Unit := do
  let l ← get
  onlyIf ((l.graph.entry id).format ≠ c.format) do
    updateEntry id fun e => e.setPaths (searchPaths l.resolver e.package e.format filename)
  if c.parsing then updateEntry id fun e => { e with parsed := true }
  else updateEntry id fun e => e.setLoaded true

/-- Compile an entry: run the compiler for the file's extension, between the preparation and the
marks. -/
def compile (nested : NestedLoad) (id : EntryId) (filename : Path) : LoadM Unit := do
  let c ← beginCompile id filename
  runTask nested id filename c.task
  endCompile id filename c

end Loader

end ModGraph
