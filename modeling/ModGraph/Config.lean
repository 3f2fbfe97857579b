import ModGraph.FileSystem
import ModGraph.LoadError
import ModGraph.Package.Options

/-!
# Configuration

What a loader is set up with. A configuration is written as a JSON record in which every field may be
left out; `Config.ofFile` reads one and `Config.toJson` writes all its fields.
-/

namespace ModGraph

open Json (Decoder RecordField Value)

/-- The part of the process's environment that says where global modules are. -/
structure Environment where
  /-- The home directory. -/
  home : Option String
  /-- A list of folders, with colons between them. -/
  nodePath : Option String
deriving DecidableEq, Repr, Inhabited

/-- The global module folders: those that are listed, then two in the home directory. -/
def Environment.globalPaths (env : Environment) : List Path :=
  let listed := match env.nodePath with
    | none => []
    | some folders =>
      ((Text.split ':' folders.toList).filter fun cs => !cs.isEmpty).map fun cs => ⟨String.ofList cs⟩
  let inHome := match env.home with
    | none => []
    | some home => [".node_modules", ".node_libraries"].map fun name => (⟨home⟩ : Path).join ⟨name⟩
  listed ++ inHome

/-- The names of the modules that need no file. -/
def builtinModules : List String := [
  "assert", "buffer", "child_process", "crypto", "events", "fs", "http", "https", "module", "net", "os",
  "path", "process", "stream", "url", "util", "vm", "zlib"]

/-- What a loader is set up with. -/
structure Config where
  /-- Whether paths keep their symbolic links. -/
  preserveSymlinks : Bool
  /-- Whether the path of the main module keeps its symbolic links. -/
  preserveSymlinksMain : Bool
  /-- The extensions that are tried for legacy modules. -/
  legacyExtensions : List String
  /-- The extensions that are tried for declarative modules. -/
  declarativeExtensions : List String
  /-- The names of the modules that need no file. -/
  builtins : List String
  /-- The folders that legacy modules may search besides their own. -/
  globalPaths : List Path
  /-- Where scanned programs are kept between runs. -/
  cacheDir : Option Path
  /-- The options of files outside of all packages. -/
  defaultOptions : PackageOptions
deriving DecidableEq, Repr, Inhabited

namespace Config

/-- The configuration of a loader for which nothing is set. -/
def default (env : Environment) : Config where
  preserveSymlinks := false
  preserveSymlinksMain := false
  legacyExtensions := [".js", ".json", ".cjs"]
  declarativeExtensions := [".mjs", ".js", ".json", ".cjs"]
  builtins := builtinModules
  globalPaths := env.globalPaths
  cacheDir := none
  defaultOptions := .default

/-- A path. -/
def decodePath : Decoder Path := fun depth => Path.mk <$> Decoder.text depth

/-- The fields of a configuration, in their order. -/
def fields : List (RecordField Config) :=
  let texts := Decoder.list Decoder.text
  [ .of "preserve_symlinks" .free Decoder.bool fun c b => { c with preserveSymlinks := b },
    .of "preserve_symlinks_main" .free Decoder.bool fun c b => { c with preserveSymlinksMain := b },
    .of "legacy_extensions" .free texts fun c es => { c with legacyExtensions := es },
    .of "declarative_extensions" .free texts fun c es => { c with declarativeExtensions := es },
    .of "builtins" .free texts fun c names => { c with builtins := names },
    .of "global_paths" .free (Decoder.list decodePath) fun c ps => { c with globalPaths := ps },
    .of "cache_dir" .free (Decoder.optional decodePath) fun c dir => { c with cacheDir := dir },
    .of "default_options" .free PackageOptions.decode fun c o => { c with defaultOptions := o } ]

/-- Read a configuration; what is left out is taken from another one. -/
def decode (defaults : Config) : Decoder Config := Decoder.record fields defaults

/-- Read a configuration from a file. -/
def ofFile (env : Environment) (fs : FileSystem) (path : Path) : Except LoadError Config :=
  match fs.readText path with
  | .error fault => .error (.io path fault)
  | .ok text =>
    match (decode (default env)).run text with
    | .ok config => .ok config
    | .error fault => .error (.manifest path (fault.message text.toList))

/-- A configuration as a JSON value, with its fields in their order. -/
def toJson (c : Config) : Value :=
  let texts (ss : List String) : Value := .array (ss.map .string)
  let path (p : Path) : Value := .string p.text
  .object [
    ("preserve_symlinks", .bool c.preserveSymlinks),
    ("preserve_symlinks_main", .bool c.preserveSymlinksMain),
    ("legacy_extensions", texts c.legacyExtensions),
    ("declarative_extensions", texts c.declarativeExtensions),
    ("builtins", texts c.builtins),
    ("global_paths", .array (c.globalPaths.map path)),
    ("cache_dir", (c.cacheDir.map path).getD .null),
    ("default_options", c.defaultOptions.toJson)]

end Config

end ModGraph
