import ModGraph.Text.Hex

/-!
# Digests

The digest of a text is the SHA-256 of its UTF-8 bytes, written in hexadecimal. The message is padded
to whole blocks of sixteen words; each block is expanded to sixty-four words and mixed into the state
in sixty-four rounds.
-/

namespace ModGraph.Digest

/-- The round constants: the first 32 bits of the fractional parts of the cube roots of the first 64
primes. -/
def roundConstants : List UInt32 := [
  0x428a2f98, 0x71374491, 0xb5c0fbcf, 0xe9b5dba5, 0x3956c25b, 0x59f111f1, 0x923f82a4, 0xab1c5ed5,
  0xd807aa98, 0x12835b01, 0x243185be, 0x550c7dc3, 0x72be5d74, 0x80deb1fe, 0x9bdc06a7, 0xc19bf174,
  0xe49b69c1, 0xefbe4786, 0x0fc19dc6, 0x240ca1cc, 0x2de92c6f, 0x4a7484aa, 0x5cb0a9dc, 0x76f988da,
  0x983e5152, 0xa831c66d, 0xb00327c8, 0xbf597fc7, 0xc6e00bf3, 0xd5a79147, 0x06ca6351, 0x14292967,
  0x27b70a85, 0x2e1b2138, 0x4d2c6dfc, 0x53380d13, 0x650a7354, 0x766a0abb, 0x81c2c92e, 0x92722c85,
  0xa2bfe8a1, 0xa81a664b, 0xc24b8b70, 0xc76c51a3, 0xd192e819, 0xd6990624, 0xf40e3585, 0x106aa070,
  0x19a4c116, 0x1e376c08, 0x2748774c, 0x34b0bcb5, 0x391c0cb3, 0x4ed8aa4a, 0x5b9cca4f, 0x682e6ff3,
  0x748f82ee, 0x78a5636f, 0x84c87814, 0x8cc70208, 0x90befffa, 0xa4506ceb, 0xbef9a3f7, 0xc67178f2]

/-- The eight words that mixing works on. -/
structure State where
  a : UInt32
  b : UInt32
  c : UInt32
  d : UInt32
  e : UInt32
  f : UInt32
  g : UInt32
  h : UInt32

/-- The state before the first block: the first 32 bits of the fractional parts of the square roots of
the first eight primes. -/
def State.initial : State :=
  ⟨0x6a09e667, 0xbb67ae85, 0x3c6ef372, 0xa54ff53a, 0x510e527f, 0x9b05688c, 0x1f83d9ab, 0x5be0cd19⟩

/-- Word by word sum. -/
def State.add (s t : State) : State :=
  ⟨s.a + t.a, s.b + t.b, s.c + t.c, s.d + t.d, s.e + t.e, s.f + t.f, s.g + t.g, s.h + t.h⟩

/-- The words of a state. -/
def State.words (s : State) : List UInt32 := [s.a, s.b, s.c, s.d, s.e, s.f, s.g, s.h]

/-- Rotate a word to the right. -/
def rotate (x : UInt32) (n : UInt32) : UInt32 := (x >>> n) ||| (x <<< (32 - n))

/-- One round, with its constant and its word of the expanded block. -/
def round (s : State) (k w : UInt32) : State :=
  let s1 := rotate s.e 6 ^^^ rotate s.e 11 ^^^ rotate s.e 25
  let choice := (s.e &&& s.f) ^^^ (~~~s.e &&& s.g)
  let t1 := s.h + s1 + choice + k + w
  let s0 := rotate s.a 2 ^^^ rotate s.a 13 ^^^ rotate s.a 22
  let majority := (s.a &&& s.b) ^^^ (s.a &&& s.c) ^^^ (s.b &&& s.c)
  ⟨t1 + s0 + majority, s.a, s.b, s.c, s.d + t1, s.e, s.f, s.g⟩

/-- The word of an expanded block that follows sixteen given ones. -/
def nextWord (window : List UInt32) : UInt32 :=
  let at_ (i : Nat) : UInt32 := window.getD i 0
  let s0 := rotate (at_ 1) 7 ^^^ rotate (at_ 1) 18 ^^^ (at_ 1 >>> 3)
  let s1 := rotate (at_ 14) 17 ^^^ rotate (at_ 14) 19 ^^^ (at_ 14 >>> 10)
  at_ 0 + s0 + at_ 9 + s1

/-- Mix a block into a state: in each round the window of sixteen words moves on by one. -/
def mixBlock (s : State) (block : List UInt32) : State :=
  let step (r : State × List UInt32) (k : UInt32) : State × List UInt32 :=
    (round r.1 k (r.2.headD 0), r.2.tail ++ [nextWord r.2])
  s.add (roundConstants.foldl step (s, block)).1

/-- A number as big-endian bytes. -/
def bigEndian (count : Nat) (n : Nat) : List UInt8 :=
  (List.range count).map fun i => (n / Nat.pow 256 (count - 1 - i)).toUInt8

/-- A message with its padding: a one bit, zeros up to eight bytes before the end of a block, and the
message's length in bits. -/
def pad (message : List UInt8) : List UInt8 :=
  let zeros := (119 - message.length % 64) % 64
  message ++ 0x80 :: (List.replicate zeros 0 ++ bigEndian 8 (8 * message.length))

/-- Cut a list into pieces of `n + 1` elements. -/
def pieces (n : Nat) : List α → List (List α)
  | [] => []
  | x :: xs => (x :: xs.take n) :: pieces n (xs.drop n)
termination_by xs => xs.length
decreasing_by simp only [List.length_drop, List.length_cons]; omega

/-- Four bytes as a word. -/
def toWord (four : List UInt8) : UInt32 := four.foldl (fun w b => (w <<< 8) ||| b.toUInt32) 0

/-- The bytes of the digest of a message. -/
def sha256 (message : List UInt8) : List UInt8 :=
  let blocks := (pieces 63 (pad message)).map fun block => (pieces 3 block).map toWord
  (blocks.foldl mixBlock State.initial).words.flatMap fun w => bigEndian 4 w.toNat

/-- The digest of a text, in hexadecimal. -/
def ofText (text : String) : String :=
  String.ofList ((sha256 text.toUTF8.toList).flatMap Text.hexByte)

end ModGraph.Digest
