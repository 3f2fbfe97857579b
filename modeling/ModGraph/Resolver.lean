import ModGraph.Config
import ModGraph.Format
import ModGraph.Package.Manifest

/-!
# Resolution

From what a module asks for to a file. A specifier names a builtin module, a path seen from the
directory of the module that asks, or a package that is looked up in the module folders above that
directory. A path stands for the file itself, for the file with one of some extensions, or for a
directory with a main file or an index file; `Resolver.resolveFile` tries these in turn.

`Resolver.resolve` finds a file and makes its path canonical, with `realize`.
-/

namespace ModGraph

/-- Whether a character starts a query: a question mark or a number sign. -/
def isQueryMark (c : Char) : Bool := c == '?' || c == '#'

/-- What a request asks for, without its query: the part before the first query mark, and the rest. -/
def splitQuery (request : String) : String × Option String :=
  let cs := request.toList
  match cs.dropWhile (!isQueryMark ·) with
  | [] => (request, none)
  | query => (String.ofList (cs.takeWhile (!isQueryMark ·)), some (String.ofList query))

/-- The key under which a module is cached: its path and its query. -/
def cacheKey (path : Path) (query : Option String) : String := path.text ++ query.getD ""

/-- What a specifier stands for. -/
inductive Resolution where
  /-- A builtin module. -/
  | builtin (name : String)
  /-- A file. -/
  | file (path : Path)
deriving DecidableEq, Repr, Inhabited

/-- How specifiers are resolved. -/
structure Resolver where
  /-- The names of the builtin modules. -/
  builtins : List String
  /-- The extensions that are tried for legacy modules. -/
  legacyExtensions : List String
  /-- The extensions that are tried for declarative modules. -/
  declarativeExtensions : List String
  /-- The folders that legacy modules may search besides their own. -/
  globalPaths : List Path
  /-- Whether paths keep their symbolic links. -/
  preserveSymlinks : Bool
  /-- Whether the path of the main module keeps its symbolic links. -/
  preserveSymlinksMain : Bool
deriving DecidableEq, Repr, Inhabited

/-- The resolver of a configuration. -/
def Resolver.ofConfig (c : Config) : Resolver where
  builtins := c.builtins
  legacyExtensions := c.legacyExtensions
  declarativeExtensions := c.declarativeExtensions
  globalPaths := c.globalPaths
  preserveSymlinks := c.preserveSymlinks
  preserveSymlinksMain := c.preserveSymlinksMain

/-- Whether a specifier is a path, and not the name of a package. -/
def isPathSpecifier (specifier : String) : Bool :=
  let cs := specifier.toList
  specifier == "." || specifier == ".." || "./".toList.isPrefixOf cs || "../".toList.isPrefixOf cs
    || (⟨specifier⟩ : Path).isAbsolute

/-- The canonical form of a path: without links, unless they are to be preserved or the path names
nothing; then without `.` and `..`. -/
def realize (fs : FileSystem) (path : Path) (preserve : Bool) : Path :=
  if preserve then path.normalize
  else match fs.realPath path with
    | .ok real => real
    | .error _ => path.normalize

namespace Resolver

/-- The name of a builtin module, without the mark that it may carry. -/
def builtinName (specifier : String) : String :=
  let mark := "node:".toList
  let cs := specifier.toList
  if mark.isPrefixOf cs then String.ofList (cs.drop mark.length) else specifier

/-- Whether a specifier names a builtin module. -/
def isBuiltin (r : Resolver) (specifier : String) : Bool := r.builtins.contains (builtinName specifier)

/-- Take a name among the builtin modules. -/
def addBuiltin (r : Resolver) (name : String) : Resolver :=
  if r.isBuiltin name then r else { r with builtins := r.builtins ++ [name] }

/-- The folders that legacy modules with path searching look into. -/
def legacySearchPaths (r : Resolver) (dir : Path) : List Path := dir.moduleFolders ++ r.globalPaths

/-- The extensions that are tried for a module of some format. -/
def extensionsFor (r : Resolver) : Format → List String
  | .legacy => r.legacyExtensions
  | .declarative => r.declarativeExtensions

/-! ### Files and directories -/

/-- The first regular file among some paths. -/
def firstFile? (fs : FileSystem) (candidates : List Path) : Option Path :=
  candidates.find? fs.isFile

/-- A path with each of some extensions. -/
def withExtensions (path : Path) (extensions : List String) : List Path :=
  extensions.map path.append

/-- The name of index files, without an extension. -/
def index : Path := ⟨"index"⟩

/-- The file that a directory stands for: its main file, or its index file. -/
def resolveDirectory (fs : FileSystem) (extensions : List String) (dir : Path) : Option Path :=
  let ofMain := match Manifest.main? fs dir with
    | none => none
    | some main =>
      let path := dir.join ⟨main⟩
      firstFile? fs (path :: withExtensions path extensions
        ++ withExtensions (path.join index) extensions)
  ofMain.or (firstFile? fs (withExtensions (dir.join index) extensions))

/-- The file that a path stands for: itself, with an extension, or as a directory. -/
def resolveFile (fs : FileSystem) (extensions : List String) (path : Path) : Option Path :=
  (firstFile? fs (path :: withExtensions path extensions)).or
    (if fs.isDirectory path then resolveDirectory fs extensions path else none)

/-! ### Specifiers -/

/-- What a resolver is asked for. -/
structure Query where
  /-- The specifier, without a query. -/
  specifier : String
  /-- The file of the module that asks. -/
  referrer : Option Path
  /-- The format of the module that asks. -/
  format : Format
  /-- Whether the main module is asked for. -/
  isMain : Bool
  /-- Further folders in which packages are looked up. -/
  search : List Path
deriving DecidableEq, Repr, Inhabited

/-- The directory from which a query is seen. -/
def Query.base (q : Query) (fs : FileSystem) : Path :=
  (q.referrer.bind Path.parent).getD fs.workingPath

/-- The paths that a query may stand for. -/
def Query.starts (q : Query) (fs : FileSystem) : List Path :=
  if isPathSpecifier q.specifier then [(q.base fs).join ⟨q.specifier⟩]
  else ((q.base fs).moduleFolders ++ q.search).map fun dir => dir.join ⟨q.specifier⟩

/-- Whether the path of what a query asks for keeps its links. -/
def preserves (r : Resolver) (q : Query) : Bool :=
  if q.isMain then r.preserveSymlinksMain else r.preserveSymlinks

/-- Resolve a specifier. -/
def resolve (r : Resolver) (fs : FileSystem) (q : Query) : Except LoadError Resolution :=
  if r.isBuiltin q.specifier then .ok (.builtin (builtinName q.specifier))
  else
    match (q.starts fs).findSome? (resolveFile fs (r.extensionsFor q.format)) with
    | some path => .ok (.file (realize fs path (r.preserves q)))
    | none => .error (.moduleNotFound q.specifier q.referrer)

end Resolver

end ModGraph
