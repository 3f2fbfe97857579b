/-!
# Faults in a JSON text

What can be wrong with a JSON text, and where. A `Fault` names the cause and the text from the place
at which reading stopped; only when it is shown is that place turned into a line and a column. Lines
are counted from one. The column is the number of bytes read since the last line feed, so it is zero
where the line feed itself is at fault.
-/

namespace ModGraph.Json

/-- What is wrong with a text. -/
inductive Cause where
  /-- The text ends where a value must go on or start. -/
  | endInValue
  /-- The text ends inside a list. -/
  | endInList
  /-- The text ends inside an object. -/
  | endInObject
  /-- The text ends inside a string. -/
  | endInString
  /-- Something that starts no value. -/
  | expectedValue
  /-- A misspelt `null`, `true` or `false`. -/
  | expectedIdent
  /-- An element that is followed by neither a comma nor the end of its list. -/
  | expectedListEnd
  /-- A member that is followed by neither a comma nor the end of its object. -/
  | expectedObjectEnd
  /-- A member name without a colon. -/
  | expectedColon
  /-- A member that does not start with a string. -/
  | keyMustBeString
  /-- More text after the value. -/
  | trailingCharacters
  /-- A comma before the end of a list or object. -/
  | trailingComma
  /-- A number that does not follow the grammar. -/
  | invalidNumber
  /-- A number too large for its format. -/
  | numberOutOfRange
  /-- A control character in a string. -/
  | controlCharacter
  /-- An unknown escape in a string. -/
  | invalidEscape
  /-- Half of a surrogate pair. -/
  | loneSurrogate
  /-- A leading surrogate that is followed by no escape. -/
  | unfinishedPair
  /-- Too many nested lists and objects. -/
  | tooDeep
  /-- A value of a form that its reader does not take. -/
  | unexpectedForm
deriving DecidableEq, Repr

/-- The wording of a cause. -/
def Cause.message : Cause → String
  | endInValue => "EOF while parsing a value"
  | endInList => "EOF while parsing a list"
  | endInObject => "EOF while parsing an object"
  | endInString => "EOF while parsing a string"
  | expectedValue => "expected value"
  | expectedIdent => "expected ident"
  | expectedListEnd => "expected `,` or `]`"
  | expectedObjectEnd => "expected `,` or `\x7d`"
  | expectedColon => "expected `:`"
  | keyMustBeString => "key must be a string"
  | trailingCharacters => "trailing characters"
  | trailingComma => "trailing comma"
  | invalidNumber => "invalid number"
  | numberOutOfRange => "number out of range"
  | controlCharacter => "control character (\\u0000-\\u001F) found while parsing a string"
  | invalidEscape => "invalid escape"
  | loneSurrogate => "lone leading surrogate in hex escape"
  | unfinishedPair => "unexpected end of hex escape"
  | tooDeep => "recursion limit exceeded"
  | unexpectedForm => "unexpected form"

/-- A cause, and where reading stopped: `past` bytes into `rest`, which is an end of the text. -/
structure Fault where
  /-- What is wrong. -/
  cause : Cause
  /-- The part of the text near whose start reading stopped. -/
  rest : List Char
  /-- How many bytes of that part were read. -/
  past : Nat
deriving DecidableEq, Repr

/-- A fault at the first byte of what is left of a text, or at the end of the text. -/
def Fault.at (cause : Cause) (rest : List Char) : Fault := ⟨cause, rest, 1⟩

/-- A fault at the byte that was read last. -/
def Fault.before (cause : Cause) (rest : List Char) : Fault := ⟨cause, rest, 0⟩

/-- The bytes of a text. -/
def bytes (cs : List Char) : List UInt8 := cs.flatMap String.utf8EncodeChar

/-- The line and the column reached after some bytes. -/
def place (read : List UInt8) : Nat × Nat :=
  let lineFeed : UInt8 := 10
  (1 + read.count lineFeed, (read.reverse.takeWhile (· ≠ lineFeed)).length)

/-- The fault in words, for a reader of the whole text. -/
def Fault.message (fault : Fault) (text : List Char) : String :=
  let all := bytes text
  let read := all.take (all.length - (bytes fault.rest).length + fault.past)
  let (line, column) := place read
  s!"{fault.cause.message} at line {line} column {column}"

end ModGraph.Json
