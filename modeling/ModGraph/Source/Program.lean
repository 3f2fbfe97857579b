import ModGraph.Json.Value

/-!
# Programs

The body of a module, as a list of statements. Expressions are JSON literals and requests for another
module's exports. `Program.requests` lists what a program asks for, in source order, and
`Program.hasModuleSyntax` says whether it is written with import and export declarations.
-/

namespace ModGraph.Source

open Json (Value)

/-- An expression. -/
inductive Expr where
  /-- A JSON literal. -/
  | literal (v : Value)
  /-- The exports of another module, or one property of them. -/
  | require (request : String) (property : Option String)
deriving Repr, Inhabited

/-- The module that an expression asks for. -/
def Expr.request? : Expr → Option String
  | .literal _ => none
  | .require request _ => some request

/-- A statement. -/
inductive Statement where
  /-- An import declaration. -/
  | imports (request : String)
  /-- An export declaration; a default export has the name `default`. -/
  | exports (name : String) (value : Expr)
  /-- An assignment to one property of the exports, or to the exports themselves. -/
  | assigns (name : Option String) (value : Expr)
  /-- An expression whose value is not used. -/
  | evaluates (value : Expr)
  /-- A thrown error. -/
  | throws (message : String)
deriving Repr, Inhabited

namespace Statement

/-- Whether a statement is an import or export declaration. -/
def isDeclaration : Statement → Bool
  | imports _ => true
  | exports _ _ => true
  | _ => false

/-- The module that a statement asks for. -/
def request? : Statement → Option String
  | imports request => some request
  | exports _ value => value.request?
  | assigns _ value => value.request?
  | evaluates value => value.request?
  | throws _ => none

end Statement

/-- The body of a module. -/
structure Program where
  /-- The statements, in source order. -/
  statements : List Statement
deriving Repr, Inhabited

namespace Program

/-- Whether the body has an import or export declaration. -/
def hasModuleSyntax (p : Program) : Bool := p.statements.any Statement.isDeclaration

/-- The modules that the body asks for, in source order. -/
def requests (p : Program) : List String := p.statements.filterMap Statement.request?

end Program

end ModGraph.Source
