import ModGraph.CodeCache
import ModGraph.Compiler
import ModGraph.Resolver

/-!
# The state of a loader

Everything a loader knows: how it resolves, reads and compiles, the file system as it is, the module
graph and the cache, and what it remembers of sources and programs. The actions of a loader run in
`LoadM`: they change the state, also when they fail.
-/

namespace ModGraph

open FileSystem (Fault)
open Json (Value)
open Source (Program)

/-- A way to read sources. -/
abbrev SourceReader := FileSystem → Path → Except Fault String

/-- A loader. -/
structure Loader where
  /-- How specifiers are resolved. -/
  resolver : Resolver
  /-- How sources are read. -/
  reader : SourceReader
  /-- How manifests are read. -/
  manifests : ManifestReader
  /-- Where scanned programs are kept between runs. -/
  codeCache? : Option CodeCache
  /-- Which compiler takes which extension. -/
  compilers : CompilerTable
  /-- What builtin modules export. -/
  builtinExports : Table String Value
  /-- The file system as it is. -/
  files : FileSystem
  /-- The packages that are known. -/
  packages : PackageContexts
  /-- The module cache. -/
  cache : Cache
  /-- The module graph. -/
  graph : Graph
  /-- The sources that were read. -/
  sources : Table (List Path.Component) String
  /-- The programs that were scanned. -/
  programs : Table (List Path.Component) Program
  /-- What happened, the latest first. -/
  journal : List Event

/-- A loader that has loaded nothing. -/
def Loader.ofConfig (c : Config) (files : FileSystem) : Loader where
  resolver := .ofConfig c
  reader := FileSystem.readText
  manifests := Manifest.inDirectory
  codeCache? := c.cacheDir.map CodeCache.mk
  compilers := .standard
  builtinExports := .empty
  files := files
  packages := .new c.defaultOptions
  cache := .empty
  graph := .empty
  sources := .empty
  programs := .empty
  journal := []

/-- Actions of a loader. -/
abbrev LoadM := ExceptT LoadError (StateM Loader)

namespace Loader

/-- Run an action from a state: its result, and the state behind it. -/
def run (l : Loader) (action : LoadM α) : Except LoadError α × Loader := ExceptT.run action l

/-- Do something about the error of an action, and fail with it. -/
def onError (action : LoadM α) (cleanUp : LoadError → LoadM Unit) : LoadM α :=
  tryCatch action fun e => do
    cleanUp e
    throw e

/-! ### Runs of actions, step by step -/

section Run

variable {α β : Type}

/-- How a run goes on after its first part. -/
def andThen (r : Except LoadError α × Loader) (next : α → LoadM β) : Except LoadError β × Loader :=
  match r with
  | (.ok a, l) => l.run (next a)
  | (.error e, l) => (.error e, l)

@[simp] theorem andThen_ok (a : α) (l : Loader) (next : α → LoadM β) :
    andThen (.ok a, l) next = l.run (next a) := rfl

@[simp] theorem andThen_error (e : LoadError) (l : Loader) (next : α → LoadM β) :
    andThen (.error e, l) next = (.error e, l) := rfl

@[simp] theorem run_pure (l : Loader) (a : α) : l.run (pure a : LoadM α) = (.ok a, l) := rfl

@[simp] theorem run_throw (l : Loader) (e : LoadError) :
    l.run (throw e : LoadM α) = (.error e, l) := rfl

@[simp] theorem run_get (l : Loader) : l.run (get : LoadM Loader) = (.ok l, l) := rfl

@[simp] theorem run_modify (l : Loader) (f : Loader → Loader) :
    l.run (modify f : LoadM Unit) = (.ok (), f l) := rfl

@[simp] theorem run_modifyGet (l : Loader) (f : Loader → α × Loader) :
    l.run (modifyGet f : LoadM α) = (.ok (f l).1, (f l).2) := rfl

@[simp] theorem run_bind (l : Loader) (action : LoadM α) (next : α → LoadM β) :
    l.run (action >>= next) = andThen (l.run action) next := by
  have h : l.run (action >>= next) = ExceptT.bindCont next (l.run action).1 (l.run action).2 := rfl
  rw [h]
  rcases l.run action with ⟨_ | _, _⟩ <;> rfl

@[simp] theorem run_map (l : Loader) (f : α → β) (action : LoadM α) :
    l.run (f <$> action) = andThen (l.run action) fun a => pure (f a) := by
  rw [map_eq_pure_bind, run_bind]

/-- What the error of an action does to its run: the cleaning up follows, and the error stays. -/
theorem run_onError (l : Loader) (action : LoadM α) (cleanUp : LoadError → LoadM Unit) :
    l.run (onError action cleanUp) =
      match l.run action with
      | (.ok a, l') => (.ok a, l')
      | (.error e, l') => andThen (l'.run (cleanUp e)) fun _ => throw e := by
  have h : ∀ r, l.run action = r → l.run (onError action cleanUp) =
      match r with
      | (.ok a, l') => (.ok a, l')
      | (.error e, l') => andThen (l'.run (cleanUp e)) fun _ => throw e := by
    intro r hr
    simp only [run, ExceptT.run] at hr
    simp only [onError, run, tryCatch, tryCatchThe, MonadExceptOf.tryCatch, ExceptT.tryCatch,
      ExceptT.run, ExceptT.mk, bind, StateT.bind, hr]
    rcases r with ⟨e | a, l'⟩
    · exact run_bind l' (cleanUp e) fun _ => throw e
    · rfl
  exact h _ rfl

end Run

/-! ### Small actions -/

/-- Do something only under a condition. -/
def onlyIf (c : Prop) [Decidable c] (action : LoadM Unit) : LoadM Unit :=
  if c then action else return ()

@[simp] theorem run_onlyIf (l : Loader) (c : Prop) [Decidable c] (action : LoadM Unit) :
    l.run (onlyIf c action) = if c then l.run action else (.ok (), l) := by
  unfold onlyIf
  split <;> rfl

/-- Report an event. -/
def report (event : Event) : LoadM Unit :=
  modify fun l => { l with journal := event :: l.journal }

/-- Report several events. -/
def reportAll (events : List Event) : LoadM Unit :=
  modify fun l => { l with journal := events.reverse ++ l.journal }

/-- The entry with a number. -/
def getEntry (id : EntryId) : LoadM Entry := return (← get).graph.entry id

/-- Change an entry. -/
def updateEntry (id : EntryId) (f : Entry → Entry) : LoadM Unit :=
  modify fun l => { l with graph := l.graph.update id f }

/-- Make an entry. -/
def addEntry (e : Entry) : LoadM EntryId :=
  modifyGet fun l =>
    let (graph, id) := l.graph.add e
    (id, { l with graph := graph })

/-- Change the cache. -/
def updateCache (f : Cache → Cache) : LoadM Unit := modify fun l => { l with cache := f l.cache }

@[simp] theorem run_report (l : Loader) (event : Event) :
    l.run (report event) = (.ok (), { l with journal := event :: l.journal }) := rfl

@[simp] theorem run_getEntry (l : Loader) (id : EntryId) :
    l.run (getEntry id) = (.ok (l.graph.entry id), l) := rfl

@[simp] theorem run_updateEntry (l : Loader) (id : EntryId) (f : Entry → Entry) :
    l.run (updateEntry id f) = (.ok (), { l with graph := l.graph.update id f }) := rfl

@[simp] theorem run_addEntry (l : Loader) (e : Entry) :
    l.run (addEntry e) = (.ok l.graph.size, { l with graph := (l.graph.add e).1 }) := rfl

@[simp] theorem run_updateCache (l : Loader) (f : Cache → Cache) :
    l.run (updateCache f) = (.ok (), { l with cache := f l.cache }) := rfl

/-! ### Changes of slots that are reported -/

/-- Move a slot from discovery to another partition. -/
def commit (key : String) (p : Partition) : LoadM Unit := do
  let l ← get
  let moved := (l.cache.commit key p).2
  updateCache fun c => (c.commit key p).1
  onlyIf moved.isSome do report (.commits key p)

/-- Drop a slot of discovery. -/
def rollback (key : String) : LoadM Unit := do
  let l ← get
  onlyIf (l.cache.has .discovery key) do
    updateCache fun c => c.rollback key
    report (.rollsBack key)

/-- Replace a slot by an error. -/
def poison (p : Partition) (key : String) (e : LoadError) : LoadM Unit := do
  report (.poisons key p)
  updateCache fun c => c.poison p key e

/-! ### Packages -/

/-- The events of a walk up from a directory. -/
def walkEvents (answer : PackageContexts.Answer) : List Event :=
  answer.walked.flatMap (fun (dir, manifest) =>
    .readsManifest dir :: match manifest with
      | .invalid e => [.ignoresManifest e]
      | _ => [])
    ++ (answer.manifestDir?.map Event.packageAt).toList

/-- Take up what a walk answers. -/
def takeAnswer (answer : PackageContexts.Answer) : LoadM PackageContext := do
  modify fun l => { l with packages := answer.contexts }
  reportAll (walkEvents answer)
  return answer.contexts.context answer.id

/-- The package of the files in a directory. -/
def packageContext (dir : Path) : LoadM PackageContext := do
  let l ← get
  takeAnswer (l.packages.contextFor (l.manifests l.files) dir)

/-- The package that a file belongs to. -/
def packageOfFile (file : Path) : LoadM PackageContext := do
  let l ← get
  takeAnswer (l.packages.contextForFile (l.manifests l.files) file)

/-! ### Sources and programs -/

/-- The text of a file, which is read once. -/
def sourceOf (path : Path) : LoadM String := do
  let l ← get
  match l.sources.get? path.components with
  | some source => return source
  | none =>
    report (.readsSource path)
    match l.reader l.files path with
    | .error fault => throw (.io path fault)
    | .ok source =>
      modify fun l => { l with sources := l.sources.insert path.components source }
      return source

/-- What the code cache holds for a source. -/
def storedProgram? (path : Path) (digest : String) : LoadM (Option Program) := do
  match (← get).codeCache? with
  | none => return none
  | some codeCache =>
    let found := codeCache.lookup (← get).files path digest
    modify fun l => { l with files := CodeCache.afterLookup l.files found }
    match found with
    | .absent => return none
    | .hit p =>
      report (.usesStored path)
      return some p
    | .spoilt blob reason =>
      report (.discardsStored blob reason)
      return none

/-- Keep a program in the code cache; a failure is reported, and that is all. -/
def storeProgram (path : Path) (digest : String) (p : Program) : LoadM Unit := do
  match (← get).codeCache? with
  | none => return ()
  | some codeCache =>
    let (files, outcome) := codeCache.store (← get).files path digest p
    modify fun l => { l with files := files }
    match outcome with
    | .ok () => return ()
    | .error fault => report (.cannotStore path fault)

/-- The program of a source: from the code cache, or scanned. -/
def scanSource (path : Path) (source : String) : LoadM Program := do
  let digest := Digest.ofText source
  match ← storedProgram? path digest with
  | some p => return p
  | none =>
    match Program.scan source with
    | .error e => throw (.compile path (.badProgram e))
    | .ok p =>
      storeProgram path digest p
      return p

/-- The program of a file, which is scanned once. -/
def programOf (path : Path) : LoadM Program := do
  match (← get).programs.get? path.components with
  | some p => return p
  | none =>
    let source ← sourceOf path
    let p ← scanSource path source
    modify fun l => { l with programs := l.programs.insert path.components p }
    return p

end Loader

end ModGraph
