import ModGraph.Package.Manifest

/-!
# Package contexts

A file belongs to the package of the nearest directory above it that holds a manifest; without one it
belongs to the default context. Answers are remembered for every directory on the way, so that a
directory is looked into at most once.

`PackageContexts.inspect` is the walk up from a directory, and `PackageContexts.contextFor` the answer
with everything remembered.
-/

namespace ModGraph

/-- The package that a file belongs to. -/
structure PackageContext where
  /-- The directory that holds the manifest; the default context has none. -/
  dir : Option Path
  /-- The options in effect. -/
  options : PackageOptions
deriving DecidableEq, Repr, Inhabited

/-- Whether the declarative modules of a package stay out of the cache that legacy modules see. -/
def PackageContext.isUnexposed (c : PackageContext) : Bool := !c.options.cjs.cache

/-- A context that was made: its number in the order of making, or none for the default context. -/
abbrev ContextId := Option Nat

/-- The contexts made so far, and which directories belong to which. -/
structure PackageContexts where
  /-- The options of the default context. -/
  defaults : PackageOptions
  /-- The contexts in the order in which they were made. -/
  made : List PackageContext
  /-- The answers for the directories that were looked into. -/
  byDirectory : Table (List Path.Component) ContextId
deriving Inhabited

/-- How a walk up from a directory ended. -/
inductive Found where
  /-- At a directory whose answer is remembered. -/
  | remembered (id : ContextId)
  /-- At a manifest. -/
  | manifest (dir : Path) (options : PackageOptions)
  /-- Above the root. -/
  | nothing
deriving DecidableEq, Repr

namespace PackageContexts

/-- Nothing is known yet. -/
def new (defaults : PackageOptions) : PackageContexts := ⟨defaults, [], .empty⟩

/-- The context that files outside of all packages belong to. -/
def defaultContext (cs : PackageContexts) : PackageContext := ⟨none, cs.defaults⟩

/-- The context with a number. -/
def context (cs : PackageContexts) (id : ContextId) : PackageContext :=
  (id.bind fun n => cs.made[n]?).getD cs.defaultContext

/-- What is remembered for a directory. -/
def remembered? (cs : PackageContexts) (dir : Path) : Option ContextId :=
  cs.byDirectory.get? dir.components

/-- Look into directories, nearest first, up to one that is remembered or holds a manifest: what was
found in each, and how the walk ended. -/
def inspect (cs : PackageContexts) (read : Path → Manifest) :
    List Path → List (Path × Manifest) × Found
  | [] => ([], .nothing)
  | dir :: above =>
    match cs.remembered? dir with
    | some id => ([], .remembered id)
    | none =>
      let manifest := read dir
      match manifest.options? with
      | some options => ([(dir, manifest)], .manifest dir options)
      | none =>
        let walk := inspect cs read above
        ((dir, manifest) :: walk.1, walk.2)

/-- Remember one answer for several directories. -/
def remember (cs : PackageContexts) (dirs : List Path) (id : ContextId) : PackageContexts :=
  { cs with byDirectory := dirs.foldl (fun t dir => t.insert dir.components id) cs.byDirectory }

/-- Make a context. -/
def make (cs : PackageContexts) (c : PackageContext) : PackageContexts × ContextId :=
  ({ cs with made := cs.made ++ [c] }, some cs.made.length)

/-- What a walk up from a directory answers. -/
structure Answer where
  /-- The contexts, with the walk remembered. -/
  contexts : PackageContexts
  /-- The context that was asked for. -/
  id : ContextId
  /-- What was looked into, and what was found there. -/
  walked : List (Path × Manifest)
  /-- The directory whose manifest ended the walk. -/
  manifestDir? : Option Path

/-- The context of the files in a directory. -/
def contextFor (cs : PackageContexts) (read : Path → Manifest) (dir : Path) : Answer :=
  let (walked, found) := cs.inspect read dir.ancestors
  let (cs, id, manifestDir?) :=
    match found with
    | .remembered id => (cs, id, none)
    | .manifest dir options =>
      let (cs, id) := cs.make ⟨some dir, options⟩
      (cs, id, some dir)
    | .nothing => (cs, none, none)
  ⟨cs.remember (walked.map (·.1)) id, id, walked, manifestDir?⟩

/-- The context that a file belongs to. -/
def contextForFile (cs : PackageContexts) (read : Path → Manifest) (file : Path) : Answer :=
  match file.parent with
  | some dir => cs.contextFor read dir
  | none => ⟨cs, none, [], none⟩

end PackageContexts

end ModGraph
