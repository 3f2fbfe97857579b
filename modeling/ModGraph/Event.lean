import ModGraph.Cache

/-!
# Events

What a loader reports while it works, for logs and for tests: the stages that a request goes through,
what happens to cache slots, and what was asked of the file system. Events change nothing.
-/

namespace ModGraph

/-- How important an event is. -/
inductive Level where
  | trace
  | debug
  | warn
deriving DecidableEq, Repr, Inhabited

/-- The name of a level in logs. -/
def Level.name : Level → String
  | trace => "TRACE"
  | debug => "DEBUG"
  | warn => "WARN"

/-- A stage on the way of a request. -/
inductive Stage where
  /-- The specifier is turned into a path. -/
  | resolving
  /-- The partition is chosen. -/
  | classifying
  /-- A cached entry is used again. -/
  | cacheHit
  /-- The edge in the graph is recorded. -/
  | linking
  /-- The request is answered. -/
  | done
deriving DecidableEq, Repr, Inhabited

/-- The name of a stage in logs. -/
def Stage.name : Stage → String
  | resolving => "Resolving"
  | classifying => "Classifying"
  | cacheHit => "CacheHit"
  | linking => "Linking"
  | done => "Done"

/-- Something that happened. -/
inductive Event where
  /-- A source was asked for. -/
  | readsSource (path : Path)
  /-- A directory's manifest was asked for. -/
  | readsManifest (dir : Path)
  /-- A request, or the module that it leads to, enters a stage. -/
  | enters (subject : String) (stage : Stage)
  /-- A module is compiled for a partition. -/
  | compilesIn (key : String) (p : Partition)
  /-- A request failed. -/
  | fails (request : String) (e : LoadError)
  /-- A compiler runs on a file. -/
  | compiles (path : Path)
  /-- A `.js` file was classified. -/
  | detects (path : Path) (format : Format)
  /-- A request leads back to a module that is being compiled. -/
  | circular (key : String)
  /-- A parsed module is used. -/
  | adopts (key : String)
  /-- A slot leaves discovery for another partition. -/
  | commits (key : String) (p : Partition)
  /-- A slot of discovery is dropped. -/
  | rollsBack (key : String)
  /-- A slot is poisoned. -/
  | poisons (key : String) (p : Partition)
  /-- A specifier is looked up again, in the folders for legacy modules. -/
  | retries (specifier : String)
  /-- A package begins at a directory. -/
  | packageAt (dir : Path)
  /-- A manifest cannot be understood. -/
  | ignoresManifest (e : LoadError)
  /-- The main module is hidden from legacy modules. -/
  | hidesMain (key : String)
  /-- The format of a loaded module stays as it is. -/
  | keepsFormat (key : String)
  /-- A stored program is used. -/
  | usesStored (path : Path)
  /-- A file of the code cache holds no program. -/
  | discardsStored (blob : Path) (reason : String)
  /-- A program cannot be stored. -/
  | cannotStore (path : Path) (fault : FileSystem.Fault)
deriving DecidableEq, Repr, Inhabited

namespace Event

/-- The level of an event, if it goes into logs. -/
def level? : Event → Option Level
  | readsSource _ => none
  | readsManifest _ => none
  | enters _ _ => some .trace
  | compilesIn _ _ => some .trace
  | fails _ _ => some .trace
  | usesStored _ => some .trace
  | ignoresManifest _ => some .warn
  | keepsFormat _ => some .warn
  | _ => some .debug

/-- The wording of an event. -/
def message : Event → String
  | readsSource path => s!"reading {path.text}"
  | readsManifest dir => s!"reading the manifest of {dir.text}"
  | enters subject stage => s!"{subject} -> {stage.name}"
  | compilesIn key p => s!"{key} -> Compiling in {p.name}"
  | fails request e => s!"{request} -> Failed: {e.message}"
  | compiles path => s!"compiling {path.text}"
  | detects path format => s!"{path.text} detected as {format.name}"
  | circular key => s!"circular request for {key} observes a partial module"
  | adopts key => s!"adopting {key} from discovery"
  | commits key p => s!"commit {key} -> {p.name}"
  | rollsBack key => s!"rollback {key}"
  | poisons key p => s!"poison {key} in {p.name}"
  | retries specifier => s!"retrying '{specifier}' with legacy search paths"
  | packageAt dir => s!"package context at {dir.text}"
  | ignoresManifest e => s!"ignoring manifest: {e.message}"
  | hidesMain key => s!"main module {key} is not visible to legacy modules"
  | keepsFormat key => s!"format of {key} is fixed once loaded"
  | usesStored path => s!"code cache hit for {path.text}"
  | discardsStored blob reason => s!"discarding code cache blob {blob.text}: {reason}"
  | cannotStore path fault => s!"code cache write failed for {path.text}: {fault.message}"

end Event

end ModGraph
