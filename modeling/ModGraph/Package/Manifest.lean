import ModGraph.FileSystem
import ModGraph.LoadError
import ModGraph.Package.Options

/-!
# Manifests

A directory that holds a `package.json` is the root of a package. Two readers look into that file: one
for the package's options, the other for its main file. A file that cannot be understood counts as no
manifest, but the reader of options says so.
-/

namespace ModGraph

open Json (Decoder)

namespace Manifest

/-- The name of manifests. -/
def fileName : String := "package.json"

/-- The manifest's path in a directory. -/
def pathIn (dir : Path) : Path := dir.join ⟨fileName⟩

/-- The options that a manifest gives; one that says nothing about them has the default ones. -/
def decodeOptions : Decoder PackageOptions :=
  Decoder.record [.of "spacey" .free (Decoder.optional PackageOptions.decode)
    fun _ options? => options?.getD .default] .default

/-- The main file that a manifest names. -/
def decodeMain : Decoder (Option String) :=
  Decoder.record [.of "main" .listed (Decoder.optional Decoder.text) fun _ main? => main?] none

/-- The main file of a package directory, if it names one. -/
def main? (fs : FileSystem) (dir : Path) : Option String :=
  match fs.readText (pathIn dir) with
  | .error _ => none
  | .ok text =>
    match decodeMain.run text with
    | .ok (some main) => if main.isEmpty then none else some main
    | _ => none

end Manifest

/-- What a directory says about its package. -/
inductive Manifest where
  /-- The directory holds no manifest. -/
  | absent
  /-- The directory holds a manifest with these options. -/
  | options (options : PackageOptions)
  /-- The directory holds a manifest that cannot be read or understood. -/
  | invalid (e : LoadError)
deriving DecidableEq, Repr, Inhabited

/-- The options of a manifest that could be understood. -/
def Manifest.options? : Manifest → Option PackageOptions
  | options o => some o
  | _ => none

/-- A way to look for manifests: what it finds in a directory of a file system. -/
abbrev ManifestReader := FileSystem → Path → Manifest

/-- Look into a directory's `package.json`. -/
def Manifest.inDirectory : ManifestReader := fun fs dir =>
  let path := pathIn dir
  match fs.readText path with
  | .error fault => if fault.kind = .notFound then .absent else .invalid (.io path fault)
  | .ok text =>
    match decodeOptions.run text with
    | .ok o => .options o
    | .error fault => .invalid (.manifest path (fault.message text.toList))

end ModGraph
