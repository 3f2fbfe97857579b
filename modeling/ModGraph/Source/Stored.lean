import ModGraph.Json.Decode
import ModGraph.Json.Printer
import ModGraph.Source.Program

/-!
# Stored programs

Scanned programs are kept as JSON: `Program.store` writes one and `Program.restore` reads it back. A
statement is an object with one member, which is named for the statement's form.
-/

namespace ModGraph.Source

open Json (Decoder Fault Payload RecordField Value)

namespace Expr

/-- An expression as a JSON value. -/
def toJson : Expr → Value
  | literal v => .object [("Literal", v)]
  | require request property =>
    .object [("Require", .object [
      ("request", .string request), ("property", (property.map Value.string).getD .null)])]

/-- Read the fields of a request. -/
def decodeRequire : Decoder Expr := fun depth => do
  let fields : List (RecordField (String × Option String)) := [
    .of "request" .required Decoder.text fun r request => (request, r.2),
    .of "property" .listed (Decoder.optional Decoder.text) fun r property => (r.1, property)]
  let (request, property) ← Decoder.record fields ("", none) depth
  return .require request property

/-- Read an expression. -/
def decode : Decoder Expr := Decoder.variant fun
  | "Literal" => some (.carrying fun depth => literal <$> Decoder.value depth)
  | "Require" => some (.carrying decodeRequire)
  | _ => none

end Expr

namespace Statement

/-- A statement as a JSON value. -/
def toJson : Statement → Value
  | imports request => .object [("Import", .string request)]
  | exports name value =>
    .object [("Export", .object [("name", .string name), ("value", value.toJson)])]
  | assigns name value =>
    .object [("Assign", .object [
      ("name", (name.map Value.string).getD .null), ("value", value.toJson)])]
  | evaluates value => .object [("Eval", value.toJson)]
  | throws message => .object [("Throw", .string message)]

/-- Read the fields of an export declaration. -/
def decodeExport : Decoder Statement := fun depth => do
  let fields : List (RecordField (String × Expr)) := [
    .of "name" .required Decoder.text fun r name => (name, r.2),
    .of "value" .required Expr.decode fun r value => (r.1, value)]
  let (name, value) ← Decoder.record fields ("", .literal .null) depth
  return .exports name value

/-- Read the fields of an assignment. -/
def decodeAssign : Decoder Statement := fun depth => do
  let fields : List (RecordField (Option String × Expr)) := [
    .of "name" .listed (Decoder.optional Decoder.text) fun r name => (name, r.2),
    .of "value" .required Expr.decode fun r value => (r.1, value)]
  let (name, value) ← Decoder.record fields (none, .literal .null) depth
  return .assigns name value

/-- Read a statement. -/
def decode : Decoder Statement := Decoder.variant fun
  | "Import" => some (.carrying fun depth => imports <$> Decoder.text depth)
  | "Export" => some (.carrying decodeExport)
  | "Assign" => some (.carrying decodeAssign)
  | "Eval" => some (.carrying fun depth => evaluates <$> Expr.decode depth)
  | "Throw" => some (.carrying fun depth => throws <$> Decoder.text depth)
  | _ => none

end Statement

namespace Program

/-- A program as a JSON value. -/
def toJson (p : Program) : Value := .object [("statements", .array (p.statements.map Statement.toJson))]

/-- Read a program. -/
def decode : Decoder Program := Decoder.record
  [.of "statements" .required (Decoder.list Statement.decode) fun _ statements => ⟨statements⟩] ⟨[]⟩

/-- The stored form of a program. -/
def store (p : Program) : String := p.toJson.render

/-- Read a stored program. -/
def restore (text : String) : Except Fault Program := decode.run text

end Program

end ModGraph.Source
