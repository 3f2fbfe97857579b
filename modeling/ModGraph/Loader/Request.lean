import ModGraph.Loader.Compile

/-!
# Answering one request

The way of a request, from the specifier to an entry of the graph. It is resolved; the partition that
governs the module is chosen; a cached entry is used again, or a new one is compiled in a slot that is
marked as loading before its compiler runs, so that a circular request finds the entry as far as it is.
At the end the edge from the entry that asks is recorded. A failure poisons the slot of a committed
partition and drops the slot of discovery.

Nested requests go through the parameter `nested`.
-/

namespace ModGraph

/-- What a loader knows about the entry that makes a request, at the time of the request. -/
structure Referrer where
  /-- The entry. -/
  id : EntryId
  /-- Its file. -/
  filename : Path
  /-- Its format. -/
  format : Format
  /-- Its package. -/
  package : PackageContext
  /-- The folders in which its packages are looked up. -/
  paths : List Path
deriving Repr, Inhabited

/-- Which slot a request leads to. -/
inductive CacheLookup where
  /-- A slot that is used as it is. -/
  | hit (id : EntryId)
  /-- A slot whose module was only parsed, and is to be evaluated. -/
  | evaluate (p : Partition) (id : EntryId)
  /-- None; one is to be made. -/
  | miss (p : Partition)
deriving DecidableEq, Repr, Inhabited

namespace Loader

/-- What is known about an entry that makes a request. -/
def referrer (id : EntryId) : LoadM Referrer := do
  let e ← getEntry id
  return ⟨id, e.module.filename, e.format, e.package, e.module.paths⟩

/-- Record that the request of an entry led to another. -/
def link (referrer : Option Referrer) (request : String) (child : EntryId) : LoadM Unit :=
  match referrer with
  | none => return ()
  | some r => updateEntry r.id fun e => e.addChild request child

/-! ### Resolving -/

/-- Whether requests of an entry are looked up again in the folders for legacy modules: its package
must allow that, and its file must not be declarative by its extension. -/
def searchesGlobally (r : Referrer) : Bool :=
  r.package.options.cjs.paths && r.filename.extension != some "mjs"

/-- Resolve a specifier. Where the package of the entry that asks allows it, a failure is followed by a
look-up in the folders for legacy modules; if that fails too, the first error counts. -/
def resolveSpecifier (specifier : String) (referrer : Option Referrer) (isMain : Bool) :
    LoadM Resolution := do
  let l ← get
  let query : Resolver.Query := {
    specifier := specifier
    referrer := referrer.map Referrer.filename
    format := (referrer.map Referrer.format).getD .legacy
    isMain := isMain
    search := [] }
  match l.resolver.resolve l.files query, referrer with
  | .ok found, _ => return found
  | .error e, none => throw e
  | .error e, some r =>
    if searchesGlobally r then
      let search := if r.paths.isEmpty then l.resolver.legacySearchPaths r.filename.directory else r.paths
      report (.retries specifier)
      match l.resolver.resolve l.files { query with format := .legacy, search := search } with
      | .ok found => return found
      | .error _ => throw e
    else throw e

/-- The entry of a builtin module, which is made when it is first asked for. -/
def builtin (name : String) : LoadM EntryId := do
  let l ← get
  match l.cache.builtins.get? name with
  | some id => return id
  | none =>
    let e := Entry.new name ⟨name⟩ .legacy l.packages.defaultContext
    let exports := (l.builtinExports.get? name).getD e.module.exports
    let id ← addEntry ((e.setExports exports).setLoaded true)
    updateCache fun c => c.setBuiltin name id
    return id

/-! ### Classifying -/

/-- The partition of a module that leaves discovery. -/
def settledPartition (unexposed : Bool) (format : Format) : Partition :=
  if unexposed && format == .declarative then .declarative else .legacy

/-- Look into a partition. -/
def lookup (p : Partition) (key : String) : LoadM CacheLookup := do
  let l ← get
  match l.cache.get? p key with
  | none => return .miss p
  | some (.poisoned e) => throw e
  | some (.loading id) =>
    report (.circular key)
    return .hit id
  | some (.ready id) =>
    if (l.graph.entry id).isLoaded || l.cache.parsing then return .hit id
    else return .evaluate p id

/-- Choose the slot for a key: a fixed declarative format or a slot there leads to the declarative
partition, then a slot there to the legacy one. A module of discovery is used as it is while it is
being compiled or parsed, and adopted otherwise. -/
def classify (key : String) (fixed : Option Format) (unexposed : Bool) : LoadM CacheLookup := do
  let l ← get
  if fixed = some .declarative || l.cache.has .declarative key then lookup .declarative key
  else if l.cache.has .legacy key then lookup .legacy key
  else match l.cache.get? .discovery key with
    | some (.poisoned e) => throw e
    | some (.loading id) => return .hit id
    | some (.ready id) =>
      if l.cache.parsing then return .hit id
      else
        let p := settledPartition unexposed (l.graph.entry id).format
        report (.adopts key)
        commit key p
        lookup p key
    | none => return .miss (if fixed.isSome then .legacy else .discovery)

/-! ### Compiling and linking -/

/-- Give a compiled module its final slot. -/
def settle (p : Partition) (key : String) (unexposed : Bool) (format : Format) : LoadM Unit := do
  let l ← get
  if p = .discovery && !l.cache.parsing then
    let committed := settledPartition unexposed format
    commit key committed
    updateCache fun c => c.finish committed key
  else updateCache fun c => c.finish p key

/-- Whether an evaluated module loses its parent: a legacy module does that was imported from a package
that keeps to itself. -/
def severs (referrer : Option Referrer) (format : Format) : Bool :=
  format == .legacy && referrer.any fun r => r.format == .declarative && r.package.isUnexposed

/-- What an evaluated module hides: a main module that legacy modules may not see, and its parent where
that is severed. -/
def conceal (referrer : Option Referrer) (isMain unexposed : Bool) (key : String) (id : EntryId)
    (format : Format) : LoadM Unit := do
  let l ← get
  onlyIf (!l.cache.parsing) do
    onlyIf (isMain && unexposed && format == .declarative) do
      report (.hidesMain key)
      updateCache fun c => { c with legacyMain? := none }
    onlyIf (severs referrer format) do
      updateEntry id fun e => { e with parent := none }

/-- What a request leads to. -/
structure Target where
  /-- The file. -/
  filename : Path
  /-- The key under which the module is cached. -/
  key : String
  /-- The package that the file belongs to. -/
  package : PackageContext
  /-- The format that the file's extension fixes. -/
  fixed : Option Format
deriving Repr, Inhabited

/-- A module that is to be compiled for a request. -/
structure Job where
  /-- The request. -/
  request : String
  /-- The entry that makes it. -/
  referrer : Option Referrer
  /-- Whether the main module is asked for. -/
  isMain : Bool
  /-- What the request leads to. -/
  target : Target
  /-- The partition of the module's slot. -/
  partition : Partition
  /-- The module's entry. -/
  id : EntryId
deriving Repr, Inhabited

/-- What a request comes to before anything is compiled. -/
inductive Finding where
  /-- It is answered with an entry. -/
  | found (id : EntryId)
  /-- A module is to be compiled first. -/
  | needs (job : Job)
deriving Repr, Inhabited

/-- Look for the module of a file; one that is not cached gets an entry. -/
def seekTarget (request : String) (referrer : Option Referrer) (isMain : Bool) (target : Target) :
    LoadM Finding := do
  report (.enters target.key .classifying)
  match ← classify target.key target.fixed target.package.isUnexposed with
  | .hit id =>
    report (.enters target.key .cacheHit)
    link referrer request id
    return .found id
  | .evaluate p id => return .needs ⟨request, referrer, isMain, target, p, id⟩
  | .miss p =>
    let e := Entry.new target.key target.filename (target.fixed.getD .legacy) target.package
    let id ← addEntry { e with parent := referrer.map Referrer.id }
    return .needs ⟨request, referrer, isMain, target, p, id⟩

/-- Resolve a request and look for what it leads to. -/
def seek (request : String) (parent : Option EntryId) (isMain : Bool) : LoadM Finding := do
  let referrer ← parent.mapM referrer
  let (specifier, query) := splitQuery request
  match ← resolveSpecifier specifier referrer isMain with
  | .builtin name =>
    let id ← builtin name
    link referrer request id
    return .found id
  | .file filename =>
    let package ← packageOfFile filename
    seekTarget request referrer isMain
      ⟨filename, cacheKey filename query, package, Format.ofPath? filename⟩

/-- Mark the slot of a module that is to be compiled, so that circular requests find its entry. -/
def occupy (job : Job) : LoadM Unit := do
  updateCache fun c => c.set job.partition job.target.key (.loading job.id)
  onlyIf job.isMain do
    updateEntry job.id fun e => { e with module := { e.module with id := "." } }
    updateCache fun c => { c with main? := some job.id, legacyMain? := some job.id }
  report (.compilesIn job.target.key job.partition)

/-- Give up the slot of a module whose compilation failed. -/
def vacate (job : Job) (e : LoadError) : LoadM Unit :=
  if job.partition.isCommitted then poison job.partition job.target.key e else rollback job.target.key

/-- Settle and link a module that was compiled. -/
def conclude (job : Job) : LoadM Unit := do
  let e ← getEntry job.id
  let format := e.format
  settle job.partition job.target.key job.target.package.isUnexposed format
  report (.enters job.target.key .linking)
  link job.referrer job.request job.id
  conceal job.referrer job.isMain job.target.package.isUnexposed job.target.key job.id format

/-- Compile a module in its slot. -/
def perform (nested : NestedLoad) (job : Job) : LoadM EntryId := do
  occupy job
  onError (compile nested job.id job.target.filename) (vacate job)
  conclude job
  return job.id

/-- Answer a request. -/
def answer (nested : NestedLoad) (request : String) (parent : Option EntryId) (isMain : Bool) :
    LoadM EntryId := do
  match ← seek request parent isMain with
  | .found id => return id
  | .needs job => perform nested job

/-- Answer a request and report how it went. -/
def reported (request : String) (action : LoadM EntryId) : LoadM EntryId := do
  report (.enters request .resolving)
  let id ← onError action fun e => report (.fails request e)
  report (.enters request .done)
  return id

end Loader

end ModGraph
