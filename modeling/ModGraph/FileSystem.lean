import ModGraph.FileSystem.Fault
import ModGraph.Path
import ModGraph.Table

/-!
# File systems

A tree of directories, files and symbolic links, kept as one table from places to what is there. The
root is a directory by definition. Every operation finds its place by `locate`, which goes through a
path name by name and follows links: at most `maxLinks` of them, so that it ends on circular links too.
The recursion is on the number of links that may still be followed and, between two links, on the names.
-/

namespace ModGraph

/-- A place in the tree: the names that lead to it, the last one first. The root is the empty list. -/
abbrev Location := List String

/-- The path of a place. -/
def Location.path (loc : Location) : Path := Path.ofComponents (.root :: loc.reverse.map .name)

/-- What is at a place. -/
inductive Node where
  /-- A regular file. -/
  | file (content : ByteArray)
  /-- A directory. -/
  | directory
  /-- A symbolic link. -/
  | link (target : String)
deriving Inhabited

/-- A tree of files, and the directory in which relative paths start. -/
structure FileSystem where
  /-- What there is, by place. -/
  nodes : Table Location Node
  /-- Where relative paths start. -/
  workingDirectory : Location
deriving Inhabited

namespace FileSystem

/-- The tree that holds nothing but its root. -/
def empty : FileSystem := ⟨.empty, []⟩

/-- What is at a place. -/
def node? (fs : FileSystem) (loc : Location) : Option Node :=
  match loc with
  | [] => some .directory
  | _ => fs.nodes.get? loc

/-- Whether a place is a directory. -/
def isDirectoryAt (fs : FileSystem) (loc : Location) : Bool :=
  match fs.node? loc with
  | some .directory => true
  | _ => false

/-! ### Going through a path -/

/-- How many links one look-up may follow. -/
def maxLinks : Nat := 40

/-- How many bytes a name may have. -/
def maxNameBytes : Nat := 255

/-- How many bytes a path may have, whatever it leads to. -/
def maxPathBytes : Nat := 4095

/-- The names between the slashes of a path. -/
def names (text : String) : List String :=
  ((Text.split '/' text.toList).filter (!·.isEmpty)).map String.ofList

/-- The names of a path, and a point if the path ends in a slash: what it names must be a directory. -/
def steps (text : String) : List String :=
  if text.toList.getLast? = some '/' then names text ++ ["."] else names text

/-- Where a path starts. -/
def start (base : Location) (text : String) : Location :=
  if text.toList.head? = some '/' then [] else base

/-- Go through names from a place. `jump` goes on from a link's directory, with its target and the
names behind it. The last name need not exist; a link there is followed only if `follow` is set. -/
def walkNames (fs : FileSystem) (follow : Bool)
    (jump : Location → String → List String → Except Fault Location) :
    Location → List String → Except Fault Location
  | loc, [] => .ok loc
  | loc, name :: rest =>
    if !fs.isDirectoryAt loc then .error .notDirectory
    else if name = "." then walkNames fs follow jump loc rest
    else if name = ".." then walkNames fs follow jump loc.tail rest
    else if maxNameBytes < name.utf8ByteSize then .error .nameTooLong
    else match fs.node? (name :: loc) with
      | some (.link target) =>
        if rest.isEmpty && !follow then .ok (name :: loc) else jump loc target rest
      | some _ => walkNames fs follow jump (name :: loc) rest
      | none => if rest.isEmpty then .ok (name :: loc) else .error .missing

/-- Go through names from a place, following at most `links` links. -/
def walk (fs : FileSystem) (follow : Bool) : Nat → Location → List String → Except Fault Location
  | 0 => walkNames fs follow fun _ _ _ => .error .tooManyLinks
  | links + 1 => walkNames fs follow fun loc target rest =>
      walk fs follow links (start loc target) (steps target ++ rest)

/-- The text of a path that a look-up can start with. -/
def checkedText (path : Path) : Except Fault String :=
  if path.text.toList.contains '\x00' then .error .zeroInPath
  else if path.text.isEmpty then .error .missing
  else if maxPathBytes < path.text.utf8ByteSize then .error .nameTooLong
  else .ok path.text

/-- The place that a path leads to; its last name need not exist. -/
def locate (fs : FileSystem) (follow : Bool) (path : Path) : Except Fault Location := do
  let text ← checkedText path
  fs.walk follow maxLinks (start fs.workingDirectory text) (steps text)

/-- The place that a path names, and what is there. -/
def find (fs : FileSystem) (path : Path) : Except Fault (Location × Node) := do
  let loc ← fs.locate true path
  match fs.node? loc with
  | some node => return (loc, node)
  | none => throw .missing

/-! ### Looking -/

/-- Whether a path names a regular file. -/
def isFile (fs : FileSystem) (path : Path) : Bool :=
  match fs.find path with
  | .ok (_, .file _) => true
  | _ => false

/-- Whether a path names a directory. -/
def isDirectory (fs : FileSystem) (path : Path) : Bool :=
  match fs.find path with
  | .ok (_, .directory) => true
  | _ => false

/-- The bytes of a file. -/
def readBytes (fs : FileSystem) (path : Path) : Except Fault ByteArray := do
  match ← fs.find path with
  | (_, .file content) => return content
  | _ => throw .isDirectory

/-- The text of a file. -/
def readText (fs : FileSystem) (path : Path) : Except Fault String := do
  let content ← fs.readBytes path
  match String.fromUTF8? content with
  | some text => return text
  | none => throw .notText

/-- The path of what a path names, without links. -/
def realPath (fs : FileSystem) (path : Path) : Except Fault Path :=
  (fs.find path).map fun found => found.1.path

/-- The names in a directory, in order. -/
def list (fs : FileSystem) (path : Path) : Except Fault (List String) := do
  match ← fs.find path with
  | (loc, .directory) =>
    let inside := fs.nodes.keys.filterMap fun
      | [] => none
      | name :: above => if above = loc then some name else none
    return inside.mergeSort fun a b => decide (a ≤ b)
  | _ => throw .notDirectory

/-! ### Changing -/

/-- Put something at a place. -/
def put (fs : FileSystem) (loc : Location) (node : Node) : FileSystem :=
  { fs with nodes := fs.nodes.insert loc node }

/-- Remove a place and everything below it. -/
def removeTree (fs : FileSystem) (loc : Location) : FileSystem :=
  { fs with nodes := fs.nodes.restrict fun below => !loc.isSuffixOf below }

/-- Write a file: it is made if its directory is there, and replaced if it is a file. -/
def writeBytes (fs : FileSystem) (path : Path) (content : ByteArray) : Except Fault FileSystem := do
  let loc ← fs.locate true path
  match fs.node? loc with
  | some .directory => throw .isDirectory
  | _ => return fs.put loc (.file content)

/-- The place of a new entry: its directory must be there, and the name must be free. -/
def vacancy (fs : FileSystem) (path : Path) : Except Fault Location := do
  let text ← checkedText path
  match (names text).reverse with
  | [] => throw .taken
  | name :: above =>
    let loc ← fs.walk true maxLinks (start fs.workingDirectory text) above.reverse
    match fs.node? loc with
    | none => throw .missing
    | some .directory =>
      if name = "." || name = ".." then throw .taken
      else if maxNameBytes < name.utf8ByteSize then throw .nameTooLong
      else if (fs.node? (name :: loc)).isSome then throw .taken
      else return name :: loc
    | some _ => throw .notDirectory

/-- Make a directory. -/
def makeDirectory (fs : FileSystem) (path : Path) : Except Fault FileSystem :=
  (fs.vacancy path).map fun loc => fs.put loc .directory

/-- Make a directory if it is not there yet. -/
def ensureDirectory (fs : FileSystem) (path : Path) : Except Fault FileSystem :=
  match fs.makeDirectory path with
  | .ok fs => .ok fs
  | .error fault => if fs.isDirectory path then .ok fs else .error fault

/-- Make the first of some directories, each of which lies in the next, and for its sake the others.
Directories that were made stay when a later one cannot be made. -/
def ensureDirectories (fs : FileSystem) : List Path → FileSystem × Except Fault Unit
  | [] => (fs, .ok ())
  | dir :: above =>
    if dir.text.isEmpty then (fs, .ok ())
    else match fs.ensureDirectory dir with
      | .ok fs => (fs, .ok ())
      | .error .missing =>
        match ensureDirectories fs above with
        | (fs, .error fault) => (fs, .error fault)
        | (fs, .ok ()) =>
          match fs.ensureDirectory dir with
          | .ok fs => (fs, .ok ())
          | .error fault => (fs, .error fault)
      | .error fault => (fs, .error fault)

/-- Make a directory and whatever is missing above it. -/
def makeDirectories (fs : FileSystem) (path : Path) : FileSystem × Except Fault Unit :=
  fs.ensureDirectories path.ancestors

/-- Make a symbolic link. -/
def makeLink (fs : FileSystem) (path : Path) (target : String) : Except Fault FileSystem :=
  (fs.vacancy path).map fun loc => fs.put loc (.link target)

/-- Remove a file or a link, but no directory. -/
def removeFile (fs : FileSystem) (path : Path) : Except Fault FileSystem := do
  let loc ← fs.locate false path
  match fs.node? loc with
  | none => throw .missing
  | some .directory => throw .isDirectory
  | some _ => return fs.removeTree loc

/-- Remove whatever a path names, with everything below it; a link at its end is not followed. -/
def remove (fs : FileSystem) (path : Path) : Except Fault FileSystem := do
  let loc ← fs.locate false path
  match fs.node? loc with
  | none => throw .missing
  | some _ => return fs.removeTree loc

/-! ### Setting up -/

/-- What an operation leaves behind: the file system as it was, if it was refused. -/
def orSame (fs : FileSystem) : Except Fault FileSystem → FileSystem
  | .ok fs => fs
  | .error _ => fs

/-- Make a directory and whatever is missing above it, as far as possible. -/
def placeDirectory (fs : FileSystem) (path : Path) : FileSystem := (fs.makeDirectories path).1

/-- Write a file, and make the directories that are missing above it. -/
def placeFile (fs : FileSystem) (path : Path) (content : ByteArray) : FileSystem :=
  let fs := fs.placeDirectory path.directory
  fs.orSame (fs.writeBytes path content)

/-- Make a symbolic link, and the directories that are missing above it. -/
def placeLink (fs : FileSystem) (path : Path) (target : String) : FileSystem :=
  let fs := fs.placeDirectory path.directory
  fs.orSame (fs.makeLink path target)

/-- Remove whatever a path names, if it names something. -/
def clear (fs : FileSystem) (path : Path) : FileSystem := fs.orSame (fs.remove path)

/-- Work in a directory, which is made if it is missing. -/
def enter (fs : FileSystem) (path : Path) : FileSystem :=
  let fs := fs.placeDirectory path
  match fs.find path with
  | .ok (loc, .directory) => { fs with workingDirectory := loc }
  | _ => fs

/-- The path of the working directory. -/
def workingPath (fs : FileSystem) : Path := fs.workingDirectory.path

end FileSystem

end ModGraph
