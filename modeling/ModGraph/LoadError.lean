import ModGraph.FileSystem.Fault
import ModGraph.Json.Fault
import ModGraph.Path
import ModGraph.Source.Scan

/-!
# Load errors

What can go wrong between a request and a module's exports. An error is a cause with the paths and
texts it is about; `LoadError.message` words it. Two laws say which errors report a missing module and
that exactly those do: `isNotFound_iff`.
-/

namespace ModGraph

open FileSystem (Fault)

/-- What is wrong with a module's source, or with what it does. -/
inductive CompileFault where
  /-- The source is no program. -/
  | badProgram (e : Source.SyntaxError)
  /-- The source is no JSON text. -/
  | badJson (fault : Json.Fault) (text : List Char)
  /-- An import declaration in a legacy module. -/
  | importOutsideModule
  /-- An export declaration in a legacy module. -/
  | exportOutsideModule
  /-- An assignment to the exports in a declarative module. -/
  | exportsUndefined
  /-- A call of `require` in a declarative module. -/
  | requireUndefined
  /-- An error thrown by the module. -/
  | thrown (message : String)
  /-- A fault that a compiler words itself. -/
  | reported (message : String)
deriving DecidableEq, Repr, Inhabited

/-- The wording of a fault. -/
def CompileFault.message : CompileFault → String
  | badProgram e => e.message
  | badJson fault text => s!"SyntaxError: Unexpected token in JSON: {fault.message text}"
  | importOutsideModule => "SyntaxError: Cannot use import statement outside a module"
  | exportOutsideModule => "SyntaxError: Cannot use export statement outside a module"
  | exportsUndefined => "ReferenceError: exports is not defined in ES module scope"
  | requireUndefined => "ReferenceError: require is not defined in ES module scope"
  | thrown message => s!"Error: {message}"
  | reported message => message

/-- Why a module cannot be loaded. -/
inductive LoadError where
  /-- No file matches a request. A request without a referrer is made at the root of the graph. -/
  | moduleNotFound (request : String) (referrer : Option Path)
  /-- A compiler rejects a file. -/
  | compile (path : Path) (fault : CompileFault)
  /-- A file cannot be read. -/
  | io (path : Path) (fault : Fault)
  /-- A manifest is there but cannot be understood. -/
  | manifest (path : Path) (reason : String)
  /-- No compiler takes a file. -/
  | unsupported (path : Path) (reason : String)
  /-- Modules request one another deeper than the file system has modules. -/
  | nestedTooDeep (request : String)
deriving DecidableEq, Repr, Inhabited

namespace LoadError

/-- The wording of an error. -/
def message : LoadError → String
  | moduleNotFound request referrer =>
    let asker := (referrer.map Path.text).getD "<root>"
    s!"Cannot find module '{request}' imported from {asker}"
  | compile path fault => s!"{fault.message}\n    at {path.text}"
  | io path fault => s!"File system error reading {path.text}: {fault.message}"
  | manifest path reason => s!"Invalid manifest {path.text}: {reason}"
  | unsupported path reason => s!"Cannot load '{path.text}': {reason}"
  | nestedTooDeep request => s!"Cannot load '{request}': requests are nested too deep"

/-- The causes of an error from the outside to the inside, each worded on its own. -/
def chain : LoadError → List String
  | io path fault => [message (io path fault), fault.message]
  | e => [e.message]

/-- Whether an error comes from resolution. -/
def isNotFound : LoadError → Bool
  | moduleNotFound _ _ => true
  | _ => false

/-- Exactly the errors of resolution report that a module is not found. -/
theorem isNotFound_iff (e : LoadError) :
    e.isNotFound = true ↔ ∃ request referrer, e = .moduleNotFound request referrer := by
  cases e <;> simp [isNotFound]

end LoadError

end ModGraph
