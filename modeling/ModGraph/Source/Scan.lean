import ModGraph.Source.Form
import ModGraph.Source.Program
import ModGraph.Text.Split
import ModGraph.Json.Doc

/-!
# Reading programs

A program is read line by line: `Program.scan` cuts the text into lines, takes the statement off each
line that holds one, and stops at the first line that is wrong. A line is trimmed and loses one
semicolon at its end; empty lines, comments and the strict-mode directive are skipped. The main
statement, `scanLines_append`, says that reading goes through joined texts line by line, the second
with its numbers shifted.
-/

namespace ModGraph.Source

open Text (trim trimEnd isBlank)

/-- What is wrong with a line. -/
inductive LineFault where
  /-- The line has the form of no statement; its first word. -/
  | unexpectedToken (token : List Char)
  /-- The expression in the line is no request and no JSON literal. -/
  | invalidExpression (text : List Char) (fault : Json.Fault)
deriving DecidableEq, Repr

/-- The wording of a line's fault. -/
def LineFault.message : LineFault → String
  | unexpectedToken token => s!"Unexpected token '{String.ofList token}'"
  | invalidExpression text fault =>
    s!"Invalid expression '{String.ofList text}': {fault.message text}"

/-- A text that is no program: the number of its first wrong line, counted from one, and what is wrong
with it. -/
structure SyntaxError where
  /-- The line's number. -/
  line : Nat
  /-- What is wrong with it. -/
  fault : LineFault
deriving DecidableEq, Repr

/-- The wording of a syntax error. -/
def SyntaxError.message (e : SyntaxError) : String :=
  s!"SyntaxError: {e.fault.message} (line {e.line})"

/-! ### One line -/

/-- Read an expression: a request or a JSON literal. -/
def Expr.scan (cs : List Char) : Except LineFault Expr :=
  let text := trim cs
  match Form.require? text with
  | some (request, property) =>
    .ok (.require (String.ofList request) (property.map String.ofList))
  | none =>
    match Json.Value.read text with
    | .ok v => .ok (.literal v)
    | .error fault => .error (.invalidExpression text fault)

/-- The first word of a text. -/
def firstWord (cs : List Char) : List Char := (cs.dropWhile isBlank).takeWhile (!isBlank ·)

/-- Read a statement: the forms are tried in turn. -/
def Statement.scan (text : List Char) : Except LineFault Statement :=
  if let some request := Form.import? text then
    .ok (.imports (String.ofList request))
  else if let some (name, value) := Form.exportBinding? text then
    (Expr.scan value).map (.exports (String.ofList name))
  else if let some value := Form.exportDefault? text then
    (Expr.scan value).map (.exports "default")
  else if let some (name, value) := Form.exportsAssign? text then
    (Expr.scan value).map (.assigns (some (String.ofList name)))
  else if let some value := Form.moduleExports? text then
    (Expr.scan value).map (.assigns none)
  else if let some value := Form.declaration? text then
    (Expr.scan value).map .evaluates
  else if let some message := Form.throw? text then
    .ok (.throws (String.ofList message))
  else if (Form.require? text).isSome then
    (Expr.scan text).map .evaluates
  else
    .error (.unexpectedToken (firstWord text))

/-- A text without one semicolon at its end. -/
def dropSemicolon (cs : List Char) : List Char :=
  match cs.reverse with
  | ';' :: rest => rest.reverse
  | _ => cs

/-- The part of a line that can be a statement. -/
def lineText (raw : List Char) : List Char := trimEnd (dropSemicolon (trim raw))

/-- Whether a line holds no statement: it is empty, a comment or the strict-mode directive. -/
def isSkipped (text : List Char) : Bool :=
  text.isEmpty || "//".toList.isPrefixOf text || text == "\"use strict\"".toList
    || text == "'use strict'".toList

/-- The statement of a line, if it holds one. -/
def scanLine (raw : List Char) : Except LineFault (Option Statement) :=
  let text := lineText raw
  if isSkipped text then .ok none else (Statement.scan text).map some

/-! ### All lines -/

/-- The statements of some lines, the first of which has the given number. -/
def scanLines (number : Nat) : List (List Char) → Except SyntaxError (List Statement)
  | [] => .ok []
  | raw :: rest =>
    match scanLine raw with
    | .error fault => .error ⟨number, fault⟩
    | .ok statement? => (scanLines (number + 1) rest).map (statement?.toList ++ ·)

/-- The lines of a source. A carriage return before a line feed stays with its line, where trimming
removes it. -/
def lines (source : String) : List (List Char) := Text.split '\n' source.toList

/-- Read a program. -/
def Program.scan (source : String) : Except SyntaxError Program :=
  (scanLines 1 (lines source)).map Program.mk

/-- Lines are read one after the other: a fault in the first part is the fault of the whole, and the
second part is read from the number that follows. -/
theorem scanLines_append (number : Nat) (a b : List (List Char)) :
    scanLines number (a ++ b) = (do
      let first ← scanLines number a
      let second ← scanLines (number + a.length) b
      return first ++ second) := by
  induction a generalizing number with
  | nil => cases h : scanLines number b <;> simp [scanLines, h, bind, Except.bind, pure, Except.pure]
  | cons raw a ih =>
    have hlen : number + (raw :: a).length = number + 1 + a.length := by
      simp only [List.length_cons]; omega
    cases hs : scanLine raw with
    | error fault => simp [scanLines, hs, bind, Except.bind]
    | ok statement? =>
      simp only [List.cons_append, scanLines, hs, ih, hlen]
      cases scanLines (number + 1) a with
      | error e => simp [bind, Except.bind, Except.map]
      | ok first =>
        cases scanLines (number + 1 + a.length) b <;>
          simp [bind, Except.bind, Except.map, pure, Except.pure]

end ModGraph.Source
