import ModGraph.Event
import ModGraph.Source.Program

/-!
# Tasks of compilers

What a compiler does to a module, as data. A task is a tree of instructions: each one says what it
wants, and how to go on with what it is given. Tasks are finite, so running one ends as soon as each of
its instructions does; what an instruction means is not said here.
-/

namespace ModGraph

open Json (Value)
open Source (Program)

/-- What a task learns about a module that it asked for. -/
structure Dependency where
  /-- The module's cache key. -/
  key : String
  /-- Whether the module was evaluated to its end. -/
  loaded : Bool
  /-- What the module exports so far. -/
  exports : Value
deriving Repr, Inhabited

/-- The exports of a module, or one property of them; a property that is not there is null. -/
def Dependency.value (d : Dependency) : Option String → Value
  | none => d.exports
  | some name => (d.exports.get? name).getD .null

/-- What a compiler does to a module. -/
inductive Task where
  /-- Nothing more. -/
  | done
  /-- Give up. -/
  | fail (e : LoadError)
  /-- Set the module's format. -/
  | setFormat (format : Format) (next : Task)
  /-- Report something. -/
  | report (event : Event) (next : Task)
  /-- Read the module's source. -/
  | readSource (next : String → Task)
  /-- Scan the module's source. -/
  | readProgram (next : Program → Task)
  /-- Load another module. -/
  | require (request : String) (next : Dependency → Task)
  /-- Replace what the module exports. -/
  | setExports (v : Value) (next : Task)
  /-- Export a value under a name. -/
  | setExport (name : String) (v : Value) (next : Task)

namespace Task

/-- Load several modules. -/
def requireAll (requests : List String) (next : Task) : Task :=
  requests.foldr (fun request rest => .require request fun _ => rest) next

/-- Assign to the exports, or to one property of them. -/
def assign (name : Option String) (v : Value) (next : Task) : Task :=
  match name with
  | some name => .setExport name v next
  | none => .setExports v next

end Task

/-- What a compiler knows before it starts. -/
structure CompileContext where
  /-- The file to be compiled. -/
  filename : Path
  /-- How the `.js` files of its package are classified. -/
  mode : Mode
  /-- Whether a parse-only pass is running. -/
  parsing : Bool
deriving DecidableEq, Repr, Inhabited

/-- Give up for a fault in the file. -/
def CompileContext.fail (cx : CompileContext) (fault : CompileFault) : Task :=
  .fail (.compile cx.filename fault)

end ModGraph
