import ModGraph.Text.Word

/-!
# The forms of statements

A statement is one line of one of eight forms. Each form has a recogniser here: a function from the
text of a line to the parts of the statement, or to `none`. No recogniser searches. A name runs as far
as there are name characters, white space as far as it goes, a quoted text to the next quotation mark;
in an import, where the clause before the request may itself hold quotation marks, the request is read
from the end of the line. Every one of these readings is forced, because a name character is neither
blank nor a mark and a quoted text holds no quotation mark.
-/

namespace ModGraph.Source.Form

open Text (isBlank isNameChar trimStart trimEnd)

/-! ### Pieces -/

/-- What follows a word. -/
def word? (w cs : List Char) : Option (List Char) := w.isPrefixOf? cs

/-- What follows one blank or more. -/
def blanks? (cs : List Char) : Option (List Char) :=
  match cs with
  | c :: rest => if isBlank c then some (trimStart rest) else none
  | [] => none

/-- A name, and what follows it. -/
def name? (cs : List Char) : Option (List Char × List Char) :=
  match cs.takeWhile isNameChar with
  | [] => none
  | c :: name => some (c :: name, cs.dropWhile isNameChar)

/-- Whether a character is a quotation mark, single or double. -/
def isQuote (c : Char) : Bool := c == '"' || c == '\''

/-- A text between quotation marks, which need not be of one kind, and what follows it. -/
def quoted? (cs : List Char) : Option (List Char × List Char) :=
  match cs with
  | q :: rest =>
    if isQuote q then
      match rest.dropWhile (!isQuote ·) with
      | _ :: after => some (rest.takeWhile (!isQuote ·), after)
      | [] => none
    else none
  | [] => none

/-- What follows an equals sign with white space around it; there must be something. -/
def afterEquals? (cs : List Char) : Option (List Char) :=
  match trimStart cs with
  | '=' :: rest =>
    match trimStart rest with
    | [] => none
    | c :: value => some (c :: value)
  | _ => none

/-- A word out of `const`, `let` and `var`, then white space, then a name: that name, and what follows
it. -/
def binding? (cs : List Char) : Option (List Char × List Char) := do
  let rest ← word? "const".toList cs <|> word? "let".toList cs <|> word? "var".toList cs
  let rest ← blanks? rest
  name? rest

/-! ### Import declarations -/

/-- A default binding at the start of an import clause, with the comma behind it, if there is one. -/
def skipDefault (cs : List Char) : List Char :=
  match name? cs with
  | none => cs
  | some (_, rest) =>
    match trimStart rest with
    | ',' :: rest => trimStart rest
    | rest => rest

/-- Named bindings in braces, if there are any. -/
def skipNamed (cs : List Char) : Option (List Char) :=
  match cs with
  | '{' :: rest =>
    match rest.dropWhile (· ≠ '}') with
    | _ :: after => some (trimStart after)
    | [] => none
  | _ => some cs

/-- A namespace binding, if there is one. -/
def skipNamespace (cs : List Char) : Option (List Char) :=
  match cs with
  | '*' :: rest => do
    let rest ← word? "as".toList (trimStart rest)
    let rest ← blanks? rest
    let (_, rest) ← name? rest
    return trimStart rest
  | _ => some cs

/-- Whether a text is made of the bindings of an import clause: a default one, named ones and a
namespace, each of them optional. -/
def isBindings (cs : List Char) : Bool :=
  match skipNamed (skipDefault (trimStart cs)) >>= skipNamespace with
  | some [] => true
  | _ => false

/-- Whether a text can stand between `import` and the request: white space, or bindings and `from`. -/
def isClause (cs : List Char) : Bool :=
  match trimEnd cs with
  | [] => true
  | text =>
    match word? "from".toList.reverse text.reverse with
    | some bindings => isBindings bindings.reverse
    | none => false

/-- `import "request"` and `import bindings from "request"`: the request. -/
def import? (cs : List Char) : Option (List Char) := do
  let rest ← word? "import".toList cs
  match quoted? rest.reverse with
  | some (c :: request, clause) =>
    if isClause clause.reverse then some (c :: request).reverse else none
  | _ => none

/-! ### The other forms -/

/-- `export const name = value`: the name and the value. -/
def exportBinding? (cs : List Char) : Option (List Char × List Char) := do
  let rest ← word? "export".toList cs
  let rest ← blanks? rest
  let (name, rest) ← binding? rest
  let value ← afterEquals? rest
  return (name, value)

/-- `export default value`: the value. -/
def exportDefault? (cs : List Char) : Option (List Char) := do
  let rest ← word? "export".toList cs
  let rest ← blanks? rest
  let rest ← word? "default".toList rest
  match ← blanks? rest with
  | [] => none
  | c :: value => some (c :: value)

/-- `exports.name = value` and `module.exports.name = value`: the name and the value. -/
def exportsAssign? (cs : List Char) : Option (List Char × List Char) := do
  let rest ← word? "exports.".toList ((word? "module.".toList cs).getD cs)
  let (name, rest) ← name? rest
  let value ← afterEquals? rest
  return (name, value)

/-- `module.exports = value`: the value. -/
def moduleExports? (cs : List Char) : Option (List Char) := do
  let rest ← word? "module.exports".toList cs
  afterEquals? rest

/-- `const name = value`: the value. -/
def declaration? (cs : List Char) : Option (List Char) := do
  let (_, rest) ← binding? cs
  afterEquals? rest

/-- `throw "message"` and `throw new Error("message")`: the message. -/
def throw? (cs : List Char) : Option (List Char) := do
  let rest ← word? "throw".toList cs
  let rest ← blanks? rest
  match quoted? rest with
  | some (message, []) => some message
  | some _ => none
  | none => do
    let rest ← word? "new".toList rest
    let rest ← blanks? rest
    let rest ← word? "Error(".toList rest
    let (message, rest) ← quoted? (trimStart rest)
    if trimStart rest = [')'] then some message else none

/-- `require("request")` and `require("request").property`: the request and the property. -/
def require? (cs : List Char) : Option (List Char × Option (List Char)) := do
  let rest ← word? "require(".toList cs
  match ← quoted? (trimStart rest) with
  | ([], _) => none
  | (c :: request, rest) =>
    match trimStart rest with
    | [')'] => some (c :: request, none)
    | ')' :: '.' :: rest =>
      match name? rest with
      | some (property, []) => some (c :: request, some property)
      | _ => none
    | _ => none

end ModGraph.Source.Form
