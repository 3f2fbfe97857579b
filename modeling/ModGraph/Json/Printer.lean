import ModGraph.Json.Value
import ModGraph.Decimal.Shortest
import ModGraph.Text.Hex

/-!
# Printing JSON

Values are printed without spaces, the members of an object in the order of their names. A string
escapes the quotation mark, the backslash and the control characters, and nothing else. An integer is
printed as it is; a floating-point number by the fewest digits that read back, always with a point or
an exponent, so that it is read back as one.
-/

namespace ModGraph.Json

open Decimal (Layout)

/-- Floating-point numbers are positional from `0.00001` up to below `10 ^ 16`. -/
def numberLayout : Layout where
  plainFrom := -5
  plainBelow := 16

/-- The text of an integer. -/
def printInteger (i : Int) : List Char :=
  match i with
  | .ofNat n => Nat.toDigits 10 n
  | .negSucc n => '-' :: Nat.toDigits 10 (n + 1)

/-- The text of a number. -/
def Number.print : Number → List Char
  | .integer i => printInteger i
  | .real x => numberLayout.render x

/-- A character inside a string. -/
def escape (c : Char) : List Char :=
  match c with
  | '"' => ['\\', '"']
  | '\\' => ['\\', '\\']
  | '\x08' => ['\\', 'b']
  | '\x0c' => ['\\', 'f']
  | '\n' => ['\\', 'n']
  | '\r' => ['\\', 'r']
  | '\t' => ['\\', 't']
  | _ => if c < ' ' then ['\\', 'u', '0', '0'] ++ Text.hexByte c.toUInt8 else [c]

/-- The text of a string, with its quotation marks. -/
def printString (s : String) : List Char := '"' :: (s.toList.flatMap escape ++ ['"'])

mutual

/-- The text of a value. -/
def Value.print : Value → List Char
  | .null => ['n', 'u', 'l', 'l']
  | .bool true => ['t', 'r', 'u', 'e']
  | .bool false => ['f', 'a', 'l', 's', 'e']
  | .number n => n.print
  | .string s => printString s
  | .array [] => ['[', ']']
  | .array (v :: vs) => '[' :: (v.print ++ Value.printItems vs)
  | .object [] => ['{', '}']
  | .object ((k, v) :: ms) => '{' :: (printString k ++ ':' :: (v.print ++ Value.printMembers ms))

/-- The text of the elements behind the first, and the end of the list. -/
def Value.printItems : List Value → List Char
  | [] => [']']
  | v :: vs => ',' :: (v.print ++ Value.printItems vs)

/-- The text of the members behind the first, and the end of the object. -/
def Value.printMembers : List (String × Value) → List Char
  | [] => ['}']
  | (k, v) :: ms => ',' :: (printString k ++ ':' :: (v.print ++ Value.printMembers ms))

end

/-- The text of a value. -/
def Value.render (v : Value) : String := String.ofList v.print

end ModGraph.Json
