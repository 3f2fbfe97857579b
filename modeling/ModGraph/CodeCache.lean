import ModGraph.Digest
import ModGraph.FileSystem
import ModGraph.Source.Stored

/-!
# Code cache

Scanned programs are kept in a directory between runs, one file for each path and each text of the
source. Nothing depends on what is there: a file that is missing or spoilt means that the source is
scanned again, and a failure to write is not an error.
-/

namespace ModGraph

open FileSystem (Fault)
open Source (Program)

/-- A directory of stored programs. -/
structure CodeCache where
  /-- The directory; it is made when something is stored. -/
  dir : Path
deriving DecidableEq, Repr, Inhabited

namespace CodeCache

/-- How many digits of a digest go into a file's name. -/
def digestDigits : Nat := 16

/-- The first digits of a digest. -/
def short (digest : String) : String := String.ofList (digest.toList.take digestDigits)

/-- The file for a module's path and the digest of its source. -/
def blob (cache : CodeCache) (path : Path) (digest : String) : Path :=
  cache.dir.join ⟨s!"{short (Digest.ofText path.text)}-{short digest}.json"⟩

/-- What the cache holds for a source. -/
inductive Lookup where
  /-- Nothing that can be read. -/
  | absent
  /-- A program. -/
  | hit (p : Program)
  /-- A file that holds no program, and why. -/
  | spoilt (blob : Path) (reason : String)

/-- The program of a look-up. -/
def Lookup.program? : Lookup → Option Program
  | hit p => some p
  | _ => none

/-- Look for the program of a source. -/
def lookup (cache : CodeCache) (fs : FileSystem) (path : Path) (digest : String) : Lookup :=
  let blob := cache.blob path digest
  match fs.readText blob with
  | .error _ => .absent
  | .ok text =>
    match Program.restore text with
    | .ok p => .hit p
    | .error fault => .spoilt blob (fault.message text.toList)

/-- The file system after a look-up: a spoilt file is removed. -/
def afterLookup (fs : FileSystem) : Lookup → FileSystem
  | .spoilt blob _ =>
    match fs.removeFile blob with
    | .ok fs => fs
    | .error _ => fs
  | _ => fs

/-- Store the program of a source. -/
def store (cache : CodeCache) (fs : FileSystem) (path : Path) (digest : String) (p : Program) :
    FileSystem × Except Fault Unit :=
  match fs.makeDirectories cache.dir with
  | (fs, .error fault) => (fs, .error fault)
  | (fs, .ok ()) =>
    match fs.writeBytes (cache.blob path digest) p.store.toUTF8 with
    | .ok fs => (fs, .ok ())
    | .error fault => (fs, .error fault)

end CodeCache

end ModGraph
