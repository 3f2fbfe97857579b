import ModGraph.Json.Token

/-!
# JSON documents

The second stage of reading: a document is a text's tree of lists and objects, its members in the
order of the text and with repetitions. `Reader.step` takes one token to the next state, which is the
stack of open lists and objects and what may come next, and `Reader.run` takes tokens until a value is
complete, so that reading ends where the tokens do.

Values are read in one of two ways. Where a value is wanted (`Reading.wanted`) every fault is raised at
once, and lists and objects nest up to a limit. A value that is skipped (`Reading.skipped`) may nest to
any depth; its numbers and strings must follow the grammar, and nothing more.
-/

namespace ModGraph.Json

/-- The tree of a value. -/
inductive Doc where
  /-- The null value. -/
  | null
  /-- A truth value. -/
  | bool (b : Bool)
  /-- A number. -/
  | number (n : Number)
  /-- A text. -/
  | string (s : String)
  /-- A list. -/
  | array (items : List Doc)
  /-- An object, its members in the order of the text. -/
  | object (members : List (String × Doc))
deriving Repr, Inhabited

/-! ### What is read for what -/

/-- What a value is read for. -/
inductive Reading where
  /-- For what it is; lists and objects may nest as many levels deep as are given. -/
  | wanted (depth : Nat)
  /-- To get behind it. -/
  | skipped
deriving DecidableEq, Repr

/-- How many lists and objects of a text that is wanted may be open at once. -/
def maxDepth : Nat := 127

namespace Reading

/-- One of two things, by what the value is read for. -/
def choose (reading : Reading) (ifWanted ifSkipped : α) : α :=
  match reading with
  | wanted _ => ifWanted
  | skipped => ifSkipped

/-- What a number or a string gives. Where it is skipped and gives nothing, something stands in its
place. -/
def take (reading : Reading) (inPlace : α) : Except Fault α → Except Fault α
  | .ok a => .ok a
  | .error fault => reading.choose (.error fault) (.ok inPlace)

end Reading

/-- The name of a member that starts with a token. -/
def Token.name (reading : Reading) (token : Token) : Except Fault String :=
  match token.lexeme with
  | .string s => reading.take "" s
  | .bad wanted skipped =>
    if token.start.head? = some '"' then .error (reading.choose wanted skipped)
    else .error (.at .keyMustBeString token.start)
  | _ => .error (.at .keyMustBeString token.start)

/-! ### One token after the other -/

/-- A list or an object that is still open. Elements and members are kept in reverse order. -/
inductive Frame where
  /-- A list, with the elements before the one that is being read. -/
  | array (done : List Doc)
  /-- An object, with the members before the one that is being read, and its name. -/
  | object (done : List (String × Doc)) (key : String)
deriving Repr

/-- What may come next. -/
inductive Next where
  /-- A value. -/
  | value
  /-- The first element of the list that was opened last, or its end. -/
  | firstElement
  /-- Another element of the list that was opened last. -/
  | element
  /-- The first member of an object, or its end. -/
  | firstMember
  /-- Another member of an object. -/
  | member (done : List (String × Doc))
  /-- The colon behind a member's name. -/
  | colon (done : List (String × Doc)) (key : String)
  /-- Whatever may follow a value that was just completed. -/
  | after (doc : Doc)
deriving Repr

/-- How far a value has been read. -/
structure Reader where
  /-- The open lists and objects, the innermost first. -/
  stack : List Frame
  /-- What may come next. -/
  next : Next
deriving Repr

namespace Reader

/-- Nothing has been read. -/
def start : Reader := ⟨[], .value⟩

/-- Open a list or an object, unless too many are open. -/
def descend (reading : Reading) (stack : List Frame) (token : Token) (r : Reader) :
    Except Fault Reader :=
  match reading with
  | .wanted depth => if depth ≤ stack.length then .error (.at .tooDeep token.start) else .ok r
  | .skipped => .ok r

/-- Read a token where a value must start. -/
def value (reading : Reading) (stack : List Frame) (token : Token) : Except Fault Reader :=
  match token.lexeme with
  | .null => .ok ⟨stack, .after .null⟩
  | .bool b => .ok ⟨stack, .after (.bool b)⟩
  | .number n => (reading.take .null (n.map Doc.number)).map fun doc => ⟨stack, .after doc⟩
  | .string s => (reading.take .null (s.map Doc.string)).map fun doc => ⟨stack, .after doc⟩
  | .mark '[' => descend reading stack token ⟨.array [] :: stack, .firstElement⟩
  | .mark '{' => descend reading stack token ⟨stack, .firstMember⟩
  | .mark _ => .error (.at .expectedValue token.start)
  | .bad wanted skipped => .error (reading.choose wanted skipped)

/-- Read a token where the name of a member must start. -/
def memberName (reading : Reading) (stack : List Frame) (done : List (String × Doc)) (token : Token) :
    Except Fault Reader :=
  (token.name reading).map fun key => ⟨stack, .colon done key⟩

/-- Read a token behind a completed value. -/
def afterValue (stack : List Frame) (doc : Doc) (token : Token) : Except Fault Reader :=
  match stack with
  | [] => .error (.at .trailingCharacters token.start)
  | .array done :: stack' =>
    match token.lexeme with
    | .mark ',' => .ok ⟨.array (doc :: done) :: stack', .element⟩
    | .mark ']' => .ok ⟨stack', .after (.array (doc :: done).reverse)⟩
    | _ => .error (.at .expectedListEnd token.start)
  | .object done key :: stack' =>
    match token.lexeme with
    | .mark ',' => .ok ⟨stack', .member ((key, doc) :: done)⟩
    | .mark '}' => .ok ⟨stack', .after (.object ((key, doc) :: done).reverse)⟩
    | _ => .error (.at .expectedObjectEnd token.start)

/-- Read one token. -/
def step (reading : Reading) (r : Reader) (token : Token) : Except Fault Reader :=
  match r.next with
  | .value => value reading r.stack token
  | .firstElement =>
    match token.lexeme, r.stack with
    | .mark ']', .array _ :: stack => .ok ⟨stack, .after (.array [])⟩
    | _, stack => value reading stack token
  | .element =>
    match token.lexeme with
    | .mark ']' => .error (.at (reading.choose .trailingComma .expectedValue) token.start)
    | _ => value reading r.stack token
  | .firstMember =>
    match token.lexeme with
    | .mark '}' => .ok ⟨r.stack, .after (.object [])⟩
    | _ => memberName reading r.stack [] token
  | .member done =>
    match token.lexeme with
    | .mark '}' => .error (.at (reading.choose .trailingComma .keyMustBeString) token.start)
    | _ => memberName reading r.stack done token
  | .colon done key =>
    match token.lexeme with
    | .mark ':' => .ok ⟨.object done key :: r.stack, .value⟩
    | _ => .error (.at .expectedColon token.start)
  | .after doc => afterValue r.stack doc token

/-- What is wrong with a text that ends here. -/
def endCause (reading : Reading) (r : Reader) : Cause :=
  match r.next, r.stack with
  | .value, _ => .endInValue
  | .firstElement, _ => .endInList
  | .element, _ => .endInValue
  | .firstMember, _ => .endInObject
  | .member _, _ => reading.choose .endInValue .endInObject
  | .colon _ _, _ => .endInObject
  | .after _, .array _ :: _ => .endInList
  | .after _, _ => .endInObject

/-- Read tokens until the value is complete. -/
def run (reading : Reading) : Reader → List Token → Except Fault (Doc × List Token)
  | ⟨[], .after doc⟩, tokens => .ok (doc, tokens)
  | r, [] => .error (.at (r.endCause reading) [])
  | r, token :: tokens => do run reading (← r.step reading token) tokens

end Reader

/-- The document at the start of some tokens, and the tokens behind it. -/
def Doc.read (reading : Reading) (tokens : List Token) : Except Fault (Doc × List Token) :=
  Reader.start.run reading tokens

/-! ### The value of a document -/

mutual

/-- The value of a document. Of members with one name, the last one counts. -/
def Doc.value : Doc → Value
  | .null => .null
  | .bool b => .bool b
  | .number n => .number n
  | .string s => .string s
  | .array items => .array (Doc.values items)
  | .object members => .object (Members.ofList (Doc.memberValues members))

/-- The values of a list of documents. -/
def Doc.values : List Doc → List Value
  | [] => []
  | doc :: docs => doc.value :: Doc.values docs

/-- The names and values of an object's members, in the order of the text. -/
def Doc.memberValues : List (String × Doc) → List (String × Value)
  | [] => []
  | (name, doc) :: members => (name, doc.value) :: Doc.memberValues members

end

/-! ### Whole texts -/

/-- What was read off the front of a text, if nothing follows it. -/
def onlyValue : α × List Token → Except Fault α
  | (a, []) => .ok a
  | (_, token :: _) => .error (.at .trailingCharacters token.start)

/-- The value of a text. -/
def Value.read (text : List Char) : Except Fault Value := do
  let doc ← onlyValue (← Doc.read (.wanted maxDepth) (tokens text))
  return doc.value

end ModGraph.Json
