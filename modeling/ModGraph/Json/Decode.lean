import ModGraph.Json.Doc

/-!
# Reading typed values

Options, manifests and stored programs are JSON texts of a known form. A `Decoder` takes such a value
off the front of a list of tokens, and raises the first fault that it comes to. A record is written as
an object or, shorter, as the list of its fields in their order (`Decoder.record`); a variant is written
as its name alone or as an object with one member (`Decoder.variant`). Members that a record does not
know are skipped, and a member that it knows may come only once.

A value that has another form than the one that is read is not skipped: what starts it decides the
fault.
-/

namespace ModGraph.Json

/-- Taking something off the front of a list of tokens. -/
abbrev TokenReader (α : Type) := StateT (List Token) (Except Fault) α

/-- A reader of typed values. Its first argument is how many levels of nesting are left. -/
abbrev Decoder (α : Type) := Nat → TokenReader α

/-- The text from a token on, or its end. -/
def textFrom : List Token → List Char
  | [] => []
  | token :: _ => token.start

/-- The fault of a value that starts with a token and is not of the form that is read. -/
def Token.refusal (token : Token) : Fault :=
  match token.lexeme with
  | .bad wanted _ => wanted
  | .number (.error fault) => fault
  | .string (.error fault) => fault
  | .mark '[' => .at .unexpectedForm token.start
  | .mark '{' => .at .unexpectedForm token.start
  | .mark _ => .at .expectedValue token.start
  | _ => .at .unexpectedForm token.start

namespace Decoder

/-- The value has a form that is not taken. -/
def unexpected : TokenReader α := fun tokens => .error (.at .unexpectedForm (textFrom tokens))

/-! ### Single tokens -/

/-- A value that is written as one token. -/
def single (take? : Lexeme → Option α) : Decoder α := fun _ tokens =>
  match tokens with
  | [] => .error (.at .endInValue [])
  | token :: rest =>
    match take? token.lexeme with
    | some a => .ok (a, rest)
    | none => .error token.refusal

/-- A truth value. -/
def bool : Decoder Bool := single fun
  | .bool b => some b
  | _ => none

/-- A text. -/
def text : Decoder String := single fun
  | .string (.ok s) => some s
  | _ => none

/-- Something that is written as null. -/
def null (a : α) : Decoder α := single fun
  | .null => some a
  | _ => none

/-- Something, or null. -/
def optional (some? : Decoder α) : Decoder (Option α) := fun depth tokens =>
  match tokens with
  | ⟨.null, _⟩ :: rest => .ok (none, rest)
  | _ => (some? depth tokens).map fun r => (some r.1, r.2)

/-! ### Whole values -/

/-- Any value, with its members as they are written. -/
def document : Decoder Doc := fun depth => Doc.read (.wanted depth)

/-- Any value. -/
def value : Decoder Value := fun depth => Doc.value <$> document depth

/-- A value that nothing is done with. -/
def skip : TokenReader Unit := fun tokens => (Doc.read .skipped tokens).map fun r => ((), r.2)

/-! ### Lists -/

/-- Whether a list goes on. The comma in front of an element is taken, the bracket at the end is not. -/
def nextElement (isFirst : Bool) : TokenReader Bool := fun tokens =>
  match tokens with
  | [] => .error (.at .endInList [])
  | token :: rest =>
    match token.lexeme with
    | .mark ']' => .ok (false, tokens)
    | lexeme =>
      if isFirst then .ok (true, tokens)
      else match lexeme, rest with
        | .mark ',', [] => .error (.at .endInValue [])
        | .mark ',', ⟨.mark ']', start⟩ :: _ => .error (.at .trailingComma start)
        | .mark ',', _ => .ok (true, rest)
        | _, _ => .error (.at .expectedListEnd token.start)

/-- The bracket at the end of a list that takes no more elements. -/
def endList : TokenReader Unit := fun tokens =>
  match tokens with
  | [] => .error (.at .endInList [])
  | ⟨.mark ']', _⟩ :: rest => .ok ((), rest)
  | ⟨.mark ',', _⟩ :: ⟨.mark ']', start⟩ :: _ => .error (.at .trailingComma start)
  | ⟨.mark ',', _⟩ :: rest => .error (.at .trailingCharacters (textFrom rest))
  | token :: _ => .error (.at .trailingCharacters token.start)

/-- The elements of a list, behind its first bracket. Each of them takes a token, so `limit` need not
exceed the number of tokens. -/
def elements (item : TokenReader α) : Nat → Bool → TokenReader (List α)
  | 0, _ => throw (.at .endInList [])
  | limit + 1, isFirst => do
    if ← nextElement isFirst then
      let a ← item
      let as ← elements item limit false
      return a :: as
    else return []

/-- A list. -/
def list (item : Decoder α) : Decoder (List α) := fun depth tokens =>
  match tokens with
  | [] => .error (.at .endInValue [])
  | ⟨.mark '[', start⟩ :: rest =>
    match depth with
    | 0 => .error (.at .tooDeep start)
    | depth + 1 => (elements (item depth) rest.length true <* endList) rest
  | token :: _ => .error token.refusal

/-! ### Objects -/

/-- The name of a member. -/
def name : TokenReader String := fun tokens =>
  match tokens with
  | [] => .error (.at .endInObject [])
  | token :: rest => (token.name (.wanted 0)).map fun name => (name, rest)

/-- The name of the next member of an object, with the comma in front of it, or the end of the object. -/
def nextName (isFirst : Bool) : TokenReader (Option String) := fun tokens =>
  match tokens with
  | [] => .error (.at .endInObject [])
  | token :: rest =>
    match token.lexeme with
    | .mark '}' => .ok (none, rest)
    | lexeme =>
      if isFirst then (some <$> name) tokens
      else match lexeme, rest with
        | .mark ',', [] => .error (.at .endInValue [])
        | .mark ',', ⟨.mark '}', start⟩ :: _ => .error (.at .trailingComma start)
        | .mark ',', _ => (some <$> name) rest
        | _, _ => .error (.at .expectedObjectEnd token.start)

/-- The colon behind the name of a member. -/
def colon : TokenReader Unit := fun tokens =>
  match tokens with
  | [] => .error (.at .endInObject [])
  | ⟨.mark ':', _⟩ :: rest => .ok ((), rest)
  | token :: _ => .error (.at .expectedColon token.start)

end Decoder

/-! ### Records -/

/-- Where a field of a record must be given. -/
inductive Presence where
  /-- Nowhere. -/
  | free
  /-- Where the record is written as a list. -/
  | listed
  /-- Everywhere. -/
  | required
deriving DecidableEq, Repr

/-- A field of a record. -/
structure RecordField (α : Type) where
  /-- The field's name. -/
  name : String
  /-- Where the field must be given. -/
  presence : Presence
  /-- Read the field's value into a record. -/
  read : α → Decoder α

/-- The field whose value is read by a decoder and put into the record. -/
def RecordField.of (name : String) (presence : Presence) (decode : Decoder β) (put : α → β → α) :
    RecordField α :=
  ⟨name, presence, fun a depth => put a <$> decode depth⟩

namespace Decoder

/-- The members of a record, behind its first brace. `seen` are the names of the fields that were given.
Each member takes a token, so `limit` need not exceed the number of tokens. -/
def recordMembers (fields : List (RecordField α)) (depth : Nat) :
    Nat → Bool → List String → α → TokenReader α
  | 0, _, _, _ => throw (.at .endInObject [])
  | limit + 1, isFirst, seen, a => do
    match ← nextName isFirst with
    | none =>
      if fields.any fun field => field.presence == .required && !seen.contains field.name then unexpected
      else return a
    | some name =>
      match fields.find? fun field => field.name == name with
      | none =>
        colon
        skip
        recordMembers fields depth limit false seen a
      | some field =>
        if seen.contains name then unexpected
        else
          colon
          let a ← field.read a depth
          recordMembers fields depth limit false (name :: seen) a

/-- The fields of a record that is written as a list, behind its first bracket. -/
def recordItems (depth : Nat) : List (RecordField α) → Bool → α → TokenReader α
  | [], _, a => do
    endList
    return a
  | field :: fields, isFirst, a => do
    if ← nextElement isFirst then
      let a ← field.read a depth
      recordItems depth fields false a
    else if field.presence == .free then recordItems depth fields isFirst a
    else unexpected

/-- A record with some fields. Those that are not given are as in `start`. -/
def record (fields : List (RecordField α)) (start : α) : Decoder α := fun depth tokens =>
  match tokens with
  | [] => .error (.at .endInValue [])
  | token :: rest =>
    match token.lexeme, depth with
    | .mark '{', 0 => .error (.at .tooDeep token.start)
    | .mark '{', depth + 1 => recordMembers fields depth rest.length true [] start rest
    | .mark '[', 0 => .error (.at .tooDeep token.start)
    | .mark '[', depth + 1 => recordItems depth fields true start rest
    | _, _ => .error token.refusal

end Decoder

/-! ### Variants -/

/-- What a variant carries. -/
inductive Payload (α : Type) where
  /-- Nothing. -/
  | plain (a : α)
  /-- A value. -/
  | carrying (read : Decoder α)

namespace Decoder

/-- What a variant carries, where it is written as an object. -/
def payload : Payload α → Decoder α
  | .plain a => null a
  | .carrying read => read

/-- The brace at the end of a variant. -/
def endVariant : TokenReader Unit := fun tokens =>
  match tokens with
  | [] => .error (.at .endInObject [])
  | ⟨.mark '}', _⟩ :: rest => .ok ((), rest)
  | token :: _ => .error (.before .expectedValue token.start)

/-- The name of a variant that is written as an object. There must be one. -/
def variantName : TokenReader String := fun tokens =>
  match tokens with
  | ⟨.mark '}', start⟩ :: _ => .error (.at .expectedValue start)
  | _ => name tokens

/-- The name of a variant, and what it carries, as an object behind its first brace. -/
def variantMember (payload? : String → Option (Payload α)) : Decoder α := fun depth => do
  match payload? (← variantName) with
  | none => unexpected
  | some p =>
    colon
    payload p depth <* endVariant

/-- One of some variants: the function gives what the variant of a name carries. -/
def variant (payload? : String → Option (Payload α)) : Decoder α := fun depth tokens =>
  match tokens with
  | [] => .error (.at .endInValue [])
  | token :: rest =>
    match token.lexeme, depth with
    | .mark '{', 0 => .error (.at .tooDeep token.start)
    | .mark '{', depth + 1 => variantMember payload? depth rest
    | .string name, _ => do
      match payload? (← name) with
      | some (.plain a) => return (a, rest)
      | _ => unexpected rest
    | .bad wanted _, _ =>
      .error (if token.start.head? = some '"' then wanted else .at .expectedValue token.start)
    | _, _ => .error (.at .expectedValue token.start)

/-! ### Whole texts -/

/-- Read a typed value that is all of a text. -/
def run (decode : Decoder α) (text : String) : Except Fault α := do
  onlyValue (← decode maxDepth (tokens text.toList))

end Decoder

end ModGraph.Json
