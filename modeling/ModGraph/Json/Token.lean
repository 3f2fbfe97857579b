import ModGraph.Json.Numeral
import ModGraph.Text.Hex

/-!
# Tokens of a JSON text

The first stage of reading

    text (List Char) ──tokens──▶ List Token ──Doc.read──▶ Doc ──Doc.value──▶ Value

A token is a bracket, a comma, a colon, a word, a number or a string. Two kinds of fault are kept
apart. A text that breaks the grammar has no further token: the list ends in a token `bad`. A number
out of range and half of a surrogate pair keep the grammar; the token is then there and holds the
fault, which is raised only where the value is wanted. Each token remembers the text from its first
character on, so that a reader can say where it stopped.

What is skipped is looked at less closely than what is wanted, and its faults are called otherwise: a
number that ends too early is an invalid number there, and a control character in a string is noticed
before it is read.
-/

namespace ModGraph.Json

/-- What a token is. -/
inductive Lexeme where
  /-- One of `[`, `]`, `{`, `}`, `,` and `:`. -/
  | mark (c : Char)
  /-- The word `null`. -/
  | null
  /-- The word `true` or `false`. -/
  | bool (b : Bool)
  /-- A number, or why it has no value. -/
  | number (n : Except Fault Number)
  /-- A string, or why it has no text. -/
  | string (s : Except Fault String)
  /-- No token: the fault of a reader that wants the value, and that of one that skips it. -/
  | bad (wanted skipped : Fault)

/-- A token, and the text from its first character on. -/
structure Token where
  /-- What the token is. -/
  lexeme : Lexeme
  /-- The text that starts with the token. -/
  start : List Char

/-! ### Strings -/

/-- The number that four hexadecimal digits stand for. -/
def hexFour? (a b c d : Char) : Option Nat := do
  let a ← Text.hexValue? a
  let b ← Text.hexValue? b
  let c ← Text.hexValue? c
  let d ← Text.hexValue? d
  return ((a * 16 + b) * 16 + c) * 16 + d

/-- The character that a short escape stands for. -/
def unescape? : Char → Option Char
  | '"' => some '"'
  | '\\' => some '\\'
  | '/' => some '/'
  | 'b' => some '\x08'
  | 'f' => some '\x0c'
  | 'n' => some '\n'
  | 'r' => some '\r'
  | 't' => some '\t'
  | _ => none

/-- The fault of a text in which no four hexadecimal digits follow: it ends too early, or the four
bytes there are no digits. -/
def hexFault (rest : List Char) : Fault :=
  if (bytes (rest.take 4)).length < 4 then .at .endInString [] else ⟨.invalidEscape, rest, 4⟩

/-- A string as scanned so far: its characters, or the first fault that a reader of it meets; and the
text behind it, or the fault that breaks the grammar. -/
structure StringScan where
  /-- What a reader of the string gets. -/
  text : Except Fault (List Char)
  /-- What follows the string. -/
  rest : Except Fault (List Char)

namespace StringScan

/-- Put a character in front. -/
def cons (c : Char) (s : StringScan) : StringScan := { s with text := s.text.map (c :: ·) }

/-- Let a reader of the string meet a fault here. -/
def spoil (fault : Fault) (s : StringScan) : StringScan := { s with text := .error fault }

/-- Stop here, with one fault for a reader of the string and one for a reader that skips it. -/
def stopAs (wanted skipped : Fault) : StringScan := ⟨.error wanted, .error skipped⟩

/-- Stop here. -/
def stop (fault : Fault) : StringScan := stopAs fault fault

/-- Where a leading surrogate waits for its other half, let a reader meet a fault. -/
def spoilIf (high : Option Nat) (fault : Fault) (s : StringScan) : StringScan :=
  if high.isSome then s.spoil fault else s

end StringScan

/-- Scan a string from behind its first quotation mark. `high` is a leading surrogate that has just
been read and waits for its other half. -/
def scanString (high : Option Nat) : List Char → StringScan
  | [] => .stop (.at .endInString [])
  | '"' :: rest => .spoilIf high (.at .unfinishedPair ('"' :: rest)) ⟨.ok [], .ok rest⟩
  | '\\' :: 'u' :: a :: b :: c :: d :: rest =>
    match hexFour? a b c d with
    | none => .stop (hexFault (a :: b :: c :: d :: rest))
    | some n =>
      match high with
      | none =>
        if 0xDC00 ≤ n ∧ n ≤ 0xDFFF then (scanString none rest).spoil (.before .loneSurrogate rest)
        else if 0xD800 ≤ n ∧ n ≤ 0xDBFF then scanString (some n) rest
        else (scanString none rest).cons (Char.ofNat n)
      | some m =>
        if 0xDC00 ≤ n ∧ n ≤ 0xDFFF then
          (scanString none rest).cons (Char.ofNat ((m - 0xD800) * 0x400 + (n - 0xDC00) + 0x10000))
        else (scanString none rest).spoil (.before .loneSurrogate rest)
  | '\\' :: 'u' :: rest => .stop (hexFault rest)
  | '\\' :: e :: rest =>
    match unescape? e with
    | some c => .spoilIf high (.at .unfinishedPair (e :: rest)) ((scanString none rest).cons c)
    | none =>
      .spoilIf high (.at .unfinishedPair (e :: rest)) (.stop (.at .invalidEscape (e :: rest)))
  | ['\\'] => .stop (.at .endInString [])
  | c :: rest =>
    .spoilIf high (.at .unfinishedPair (c :: rest))
      (if c < ' ' then
        .stopAs (.at .controlCharacter (c :: rest)) (.before .controlCharacter (c :: rest))
      else (scanString none rest).cons c)

@[simp] theorem StringScan.rest_stopAs (f g : Fault) : (stopAs f g).rest = .error g := rfl

@[simp] theorem StringScan.rest_stop (f : Fault) : (stop f).rest = .error f := rfl

@[simp] theorem StringScan.rest_cons (c : Char) (s : StringScan) : (s.cons c).rest = s.rest := rfl

@[simp] theorem StringScan.rest_spoil (f : Fault) (s : StringScan) : (s.spoil f).rest = s.rest := rfl

@[simp] theorem StringScan.rest_spoilIf (high : Option Nat) (f : Fault) (s : StringScan) :
    (s.spoilIf high f).rest = s.rest := by
  unfold spoilIf; split <;> rfl

/-- A string takes at least its closing quotation mark. -/
theorem scanString_length {high : Option Nat} {cs rest : List Char}
    (h : (scanString high cs).rest = .ok rest) : rest.length < cs.length := by
  fun_induction scanString high cs <;>
    (try simp only [StringScan.rest_spoilIf] at h) <;>
    (try split at h) <;>
    (try simp only [StringScan.rest_stopAs, StringScan.rest_stop, StringScan.rest_cons,
      StringScan.rest_spoil, reduceCtorEq, Except.ok.injEq] at h) <;>
    simp only [List.length_cons] <;> grind

/-! ### Words -/

/-- The rest of a word, or the fault of a text that goes on otherwise. -/
def scanWord : List Char → List Char → Except Fault (List Char)
  | [], cs => .ok cs
  | _ :: _, [] => .error (.at .endInValue [])
  | w :: ws, c :: cs => if c = w then scanWord ws cs else .error (.at .expectedIdent (c :: cs))

theorem scanWord_length {w cs rest : List Char} (h : scanWord w cs = .ok rest) :
    rest.length ≤ cs.length := by
  fun_induction scanWord w cs <;> simp_all
  omega

/-! ### The tokens of a text -/

/-- The white space of the format: space, tab, line feed and carriage return. -/
def isSpace (c : Char) : Bool := c == ' ' || c == '\n' || c == '\t' || c == '\r'

/-- A text without its leading white space. -/
def skipSpace (cs : List Char) : List Char := cs.dropWhile isSpace

/-- The first token of a text that starts with `c`, and what follows it. -/
def lexeme (c : Char) (rest : List Char) : Lexeme × List Char :=
  let word (w : List Char) (l : Lexeme) : Lexeme × List Char :=
    match scanWord w rest with
    | .ok rest => (l, rest)
    | .error f => (.bad f f, [])
  match c with
  | '[' => (.mark c, rest)
  | ']' => (.mark c, rest)
  | '{' => (.mark c, rest)
  | '}' => (.mark c, rest)
  | ',' => (.mark c, rest)
  | ':' => (.mark c, rest)
  | 'n' => word ['u', 'l', 'l'] .null
  | 't' => word ['r', 'u', 'e'] (.bool true)
  | 'f' => word ['a', 'l', 's', 'e'] (.bool false)
  | '"' =>
    let s := scanString none rest
    match s.rest with
    | .ok after => (.string (s.text.map String.ofList), after)
    | .error f => (.bad (match s.text with | .error wanted => wanted | .ok _ => f) f, [])
  | _ =>
    if c = '-' ∨ isDigit c = true then
      match Numeral.scan (c :: rest) with
      | .ok (n, after) =>
        let unread (k : Nat) : Fault :=
          .before .numberOutOfRange ((c :: rest).drop ((c :: rest).length - after.length - k))
        (.number (n.value.mapError unread), after)
      | .error f => (.bad f { f with cause := .invalidNumber }, [])
    else
      let fault := Fault.at .expectedValue (c :: rest)
      (.bad fault fault, [])

/-- What follows a token is no longer than what follows its first character. -/
theorem length_lexeme_le (c : Char) (rest : List Char) : (lexeme c rest).2.length ≤ rest.length := by
  unfold lexeme
  split <;> try exact Nat.le_refl _
  all_goals simp only
  · split
    · exact scanWord_length ‹_›
    · simp
  · split
    · exact scanWord_length ‹_›
    · simp
  · split
    · exact scanWord_length ‹_›
    · simp
  · split
    · exact Nat.le_of_lt (scanString_length ‹_›)
    · simp
  · split
    · split
      · have := Numeral.scan_length ‹_›
        simp only [List.length_cons] at this
        simp only
        omega
      · simp
    · simp

theorem length_skipSpace_le (cs : List Char) : (skipSpace cs).length ≤ cs.length :=
  (List.dropWhile_suffix isSpace).length_le

/-- The tokens of a text, up to the first place where it breaks the grammar of tokens. -/
def tokens (cs : List Char) : List Token :=
  match _h : skipSpace cs with
  | [] => []
  | c :: rest =>
    let step := lexeme c rest
    ⟨step.1, c :: rest⟩ :: tokens step.2
termination_by cs.length
decreasing_by
  have h1 := length_lexeme_le c rest
  have h2 := length_skipSpace_le cs
  rw [_h] at h2
  simp only [List.length_cons] at h2
  omega

theorem tokens_of_skipSpace_nil {cs : List Char} (h : skipSpace cs = []) : tokens cs = [] := by
  rw [tokens]
  split
  · rfl
  · next h' => rw [h] at h'; exact absurd h' (by simp)

theorem tokens_of_skipSpace_cons {cs : List Char} {c : Char} {rest : List Char}
    (h : skipSpace cs = c :: rest) :
    tokens cs = ⟨(lexeme c rest).1, c :: rest⟩ :: tokens (lexeme c rest).2 := by
  rw [tokens]
  split
  · next h' => rw [h] at h'; exact absurd h' (by simp)
  · next c' rest' h' => rw [h] at h'; cases h'; rfl

end ModGraph.Json
