import ModGraph.Compiler.Task

/-!
# Compilers

How files become modules. There is a compiler for each format, one that chooses between the two for
`.js` files, one for JSON files, and one that rejects native addons. A legacy module runs its statements
one after the other, so that a request sees what was exported before it; a declarative module loads
everything that it imports before it exports anything. In a parse-only pass both only load what the
program asks for.

A `CompilerTable` says which compiler takes which extension.
-/

namespace ModGraph

open Json (Value)
open Source (Expr Statement Program)

/-! ### Legacy modules -/

/-- Run statements of a legacy module. -/
def evaluateLegacy (cx : CompileContext) : List Statement → Task
  | [] => .done
  | .assigns name (.literal v) :: rest => .assign name v (evaluateLegacy cx rest)
  | .assigns name (.require request property) :: rest =>
    .require request fun d => .assign name (d.value property) (evaluateLegacy cx rest)
  | .evaluates (.require request _) :: rest => .require request fun _ => evaluateLegacy cx rest
  | .throws message :: _ => cx.fail (.thrown message)
  | _ :: rest => evaluateLegacy cx rest

/-- Why a statement cannot stand in a legacy module. -/
def Source.Statement.legacyFault? : Statement → Option CompileFault
  | .imports _ => some .importOutsideModule
  | .exports _ _ => some .exportOutsideModule
  | _ => none

/-- Compile a program as a legacy module. -/
def runLegacy (cx : CompileContext) (p : Program) : Task :=
  .setFormat .legacy <|
    match p.statements.findSome? Statement.legacyFault? with
    | some fault => cx.fail fault
    | none => if cx.parsing then .requireAll p.requests .done else evaluateLegacy cx p.statements

/-! ### Declarative modules -/

/-- Run statements of a declarative module whose imports are loaded. -/
def evaluateDeclarative (cx : CompileContext) : List Statement → Task
  | [] => .done
  | .exports name (.literal v) :: rest => .setExport name v (evaluateDeclarative cx rest)
  | .throws message :: _ => cx.fail (.thrown message)
  | _ :: rest => evaluateDeclarative cx rest

/-- Why a statement cannot stand in a declarative module. -/
def Source.Statement.declarativeFault? : Statement → Option CompileFault
  | .assigns _ _ => some .exportsUndefined
  | .exports _ (.require _ _) => some .requireUndefined
  | .evaluates (.require _ _) => some .requireUndefined
  | _ => none

/-- The module that an import declaration asks for. -/
def Source.Statement.import? : Statement → Option String
  | .imports request => some request
  | _ => none

/-- The modules that a program imports. -/
def Source.Program.imports (p : Program) : List String := p.statements.filterMap Statement.import?

/-- Compile a program as a declarative module. -/
def runDeclarative (cx : CompileContext) (p : Program) : Task :=
  .setFormat .declarative <|
    match p.statements.findSome? Statement.declarativeFault? with
    | some fault => cx.fail fault
    | none =>
      .requireAll p.imports (if cx.parsing then .done else evaluateDeclarative cx p.statements)

/-! ### The compilers -/

/-- A compiler. -/
inductive Compiler where
  /-- For files that the package and the text classify. -/
  | script
  /-- For legacy modules. -/
  | legacy
  /-- For declarative modules. -/
  | declarative
  /-- For JSON files, whose value is what they export. -/
  | json
  /-- For native addons, which are rejected without being read. -/
  | native
  /-- A compiler that is added from outside: the requests that it may make besides those of the
  module's program, and what it does. -/
  | plugin (requests : List String) (task : CompileContext → Task)
deriving Inhabited

/-- Whether a program is compiled as a declarative module. -/
def Mode.isDeclarative (mode : Mode) (p : Program) : Bool :=
  match mode with
  | strict => false
  | auto => p.hasModuleSyntax
  | all => true

namespace Compiler

/-- What a compiler does to a module. -/
def task (c : Compiler) (cx : CompileContext) : Task :=
  match c with
  | script => .readProgram fun p =>
    if cx.mode.isDeclarative p then
      .report (.detects cx.filename .declarative) (runDeclarative cx p)
    else .report (.detects cx.filename .legacy) (runLegacy cx p)
  | legacy => .readProgram (runLegacy cx)
  | declarative => .readProgram (runDeclarative cx)
  | json => .setFormat .legacy <| .readSource fun source =>
    match Value.read source.toList with
    | .ok v => .setExports v .done
    | .error fault => cx.fail (.badJson fault source.toList)
  | native => .fail (.unsupported cx.filename "native addons are not supported")
  | plugin _ task => task cx

/-- The requests that a compiler may make besides those of the module's program. -/
def ownRequests : Compiler → List String
  | plugin requests _ => requests
  | _ => []

end Compiler

/-- Which compiler takes which extension. Files with another extension, or none, are legacy modules. -/
structure CompilerTable where
  /-- The compilers by extension, with its point. -/
  byExtension : Table String Compiler
deriving Inhabited

namespace CompilerTable

/-- Let a compiler take an extension. -/
def register (t : CompilerTable) (extension : String) (c : Compiler) : CompilerTable :=
  ⟨t.byExtension.insert extension c⟩

/-- The table of the compilers that are there from the start. -/
def standard : CompilerTable :=
  ((((CompilerTable.mk .empty).register ".js" .script).register ".cjs" .legacy).register ".mjs"
    .declarative).register ".json" .json |>.register ".node" .native

/-- The registered extension of a file. -/
def extension? (t : CompilerTable) (path : Path) : Option String :=
  (path.extension.map fun e => "." ++ e).filter t.byExtension.contains

/-- The compiler for a file. -/
def forPath (t : CompilerTable) (path : Path) : Compiler :=
  ((t.extension? path).bind t.byExtension.get?).getD .legacy

/-- The registered extensions, in order. -/
def extensions (t : CompilerTable) : List String := Cache.sorted t.byExtension.keys

end CompilerTable

end ModGraph
