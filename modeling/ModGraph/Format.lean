import ModGraph.Path

/-!
# Module formats

A module is either legacy, with `require` and `exports`, or declarative, with import and export
declarations. Some extensions fix the format of a file; the others leave it to its package and its text.
-/

namespace ModGraph

/-- The format of a module. -/
inductive Format where
  /-- With `require` and `exports`. -/
  | legacy
  /-- With import and export declarations. -/
  | declarative
deriving DecidableEq, Repr, Inhabited

namespace Format

/-- The name of a format. -/
def name : Format → String
  | legacy => "legacy"
  | declarative => "declarative"

/-- The format that a file's extension fixes. A file without an extension is always legacy. -/
def ofPath? (path : Path) : Option Format :=
  match path.extension with
  | none => some legacy
  | some "mjs" => some declarative
  | some "cjs" => some legacy
  | some "json" => some legacy
  | some _ => none

end Format

end ModGraph
