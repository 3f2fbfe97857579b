import ModGraph.Report

/-!
# The command

Load a module graph and show how each module was classified. `Command.run` is the whole command, from
its options and a file system to the text that it prints or the error with which it ends.
-/

namespace ModGraph

/-- What the command is told to do. -/
structure Command where
  /-- The main module. -/
  script : Path
  /-- Whether paths keep their symbolic links. -/
  preserveSymlinks : Bool
  /-- Where scanned programs are kept between runs. -/
  cacheDir : Option Path
  /-- The file that holds the configuration. -/
  configFile : Option Path
  /-- Whether modules are only classified. -/
  parseOnly : Bool
  /-- Whether exports are shown. -/
  showExports : Bool
  /-- Whether the cache is shown. -/
  showCache : Bool
deriving DecidableEq, Repr, Inhabited

namespace Command

/-- An error with its causes, from the outside to the inside. -/
def explain (causes : List String) : String := String.intercalate ": " causes

/-- The configuration of a run. -/
def config (c : Command) (env : Environment) (fs : FileSystem) : Except String Config := do
  let config ← match c.configFile with
    | none => pure (Config.default env)
    | some path =>
      (Config.ofFile env fs path).mapError fun e => explain (s!"reading config {path.text}" :: e.chain)
  return { config with
    preserveSymlinks := config.preserveSymlinks || c.preserveSymlinks
    cacheDir := c.cacheDir.or config.cacheDir }

/-- The request for the main module. -/
def request (c : Command) (fs : FileSystem) : Except String String :=
  match c.script.absolute? fs.workingPath with
  | some path => .ok path.text
  | none =>
    .error (explain [s!"invalid path {c.script.text}", FileSystem.Fault.emptyPath.message])

/-- The text that is printed for a loaded graph. -/
def output (c : Command) (l : Loader) (root : EntryId) : String :=
  Report.text (Report.tree l c.showExports root
    ++ if c.showCache then Report.cacheLines l.cache else [])

/-- Load the main module, or only classify it. -/
def loadMain (c : Command) (request : String) : LoadM EntryId :=
  if c.parseOnly then Loader.discover request none else Loader.load request none true

/-- Run the command: the text that it prints, or the error with which it ends. -/
def run (c : Command) (env : Environment) (fs : FileSystem) : Except String String := do
  let config ← c.config env fs
  let request ← c.request fs
  match (Loader.ofConfig config fs).run (c.loadMain request) with
  | (.ok root, l) => return c.output l root
  | (.error e, _) => throw (explain e.chain)

end Command

end ModGraph
