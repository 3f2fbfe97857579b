import ModGraph.Json.Value
import ModGraph.Json.Fault

/-!
# Numerals

A number as a JSON text writes it, and the value it stands for. `Numeral.scan` cuts a numeral off a
text; `scan_length` says that it takes at least one character. A numeral without a point or an
exponent that fits 64 bits is an integer, signed if it is negative. Any other is a floating-point
number: its first digits, as far as they fit 64 bits, are the significand, and the power of ten
accounts for the rest.
-/

namespace ModGraph.Json

open Decimal (Binary64)

/-- Whether a character is a decimal digit. -/
def isDigit (c : Char) : Bool := '0' ≤ c && c ≤ '9'

/-- The value of a decimal digit. -/
def digitValue (c : Char) : Nat := c.toNat - 48

/-- A number as it is written. -/
structure Numeral where
  /-- Whether a minus stands in front. -/
  negative : Bool
  /-- The digits before the point. -/
  whole : List Char
  /-- The digits behind the point, if there is one. -/
  fraction : Option (List Char)
  /-- Whether the exponent is negative, and its digits, if there is one. -/
  exponent : Option (Bool × List Char)
deriving DecidableEq, Repr

namespace Numeral

/-! ### Cutting a numeral off a text -/

/-- The digits at the start of a text. -/
def digits (cs : List Char) : List Char := cs.takeWhile isDigit

/-- A text without the digits at its start. -/
def afterDigits (cs : List Char) : List Char := cs.dropWhile isDigit

theorem length_afterDigits_le (cs : List Char) : (afterDigits cs).length ≤ cs.length :=
  (List.dropWhile_suffix isDigit).length_le

/-- One digit or more; `faultAt` is the fault of a text that goes on otherwise. -/
def someDigits (faultAt : List Char → Fault) (cs : List Char) : Except Fault (List Char × List Char) :=
  match cs with
  | [] => .error (.at .endInValue [])
  | c :: _ => if isDigit c then .ok (digits cs, afterDigits cs) else .error (faultAt cs)

/-- The digits before the point. A zero stands alone. -/
def scanWhole (cs : List Char) : Except Fault (List Char × List Char) :=
  match cs with
  | '0' :: rest =>
    match rest with
    | c :: _ => if isDigit c then .error (.at .invalidNumber rest) else .ok (['0'], rest)
    | [] => .ok (['0'], [])
  | _ => someDigits (.at .invalidNumber) cs

/-- The point and the digits behind it, if there is a point. -/
def scanFraction (cs : List Char) : Except Fault (Option (List Char) × List Char) :=
  match cs with
  | '.' :: rest => (someDigits (.at .invalidNumber) rest).map fun r => (some r.1, r.2)
  | _ => .ok (none, cs)

/-- The sign of an exponent. -/
def scanSign (cs : List Char) : Bool × List Char :=
  match cs with
  | '+' :: rest => (false, rest)
  | '-' :: rest => (true, rest)
  | _ => (false, cs)

/-- The exponent, if there is one. -/
def scanExponent (cs : List Char) : Except Fault (Option (Bool × List Char) × List Char) :=
  match cs with
  | c :: rest =>
    if c = 'e' ∨ c = 'E' then
      let (negative, rest) := scanSign rest
      (someDigits (.at .invalidNumber) rest).map fun r => (some (negative, r.1), r.2)
    else .ok (none, cs)
  | [] => .ok (none, cs)

/-- The numeral at the start of a text, and what follows it. -/
def scan (cs : List Char) : Except Fault (Numeral × List Char) := do
  let (negative, cs) := match cs with
    | '-' :: rest => (true, rest)
    | _ => (false, cs)
  let (whole, cs) ← scanWhole cs
  let (fraction, cs) ← scanFraction cs
  let (exponent, cs) ← scanExponent cs
  return (⟨negative, whole, fraction, exponent⟩, cs)

/-! ### A scan moves on -/

theorem someDigits_length {faultAt : List Char → Fault} {cs : List Char} {r : List Char × List Char}
    (h : someDigits faultAt cs = .ok r) : r.2.length < cs.length := by
  cases cs with
  | nil => simp [someDigits] at h
  | cons c cs =>
    by_cases hc : isDigit c = true
    · simp only [someDigits, hc, if_true, Except.ok.injEq] at h
      subst h
      have : afterDigits (c :: cs) = afterDigits cs := by simp [afterDigits, hc]
      simp only [this]
      exact Nat.lt_succ_of_le (length_afterDigits_le cs)
    · simp [someDigits, hc] at h

theorem scanWhole_length {cs : List Char} {r : List Char × List Char} (h : scanWhole cs = .ok r) :
    r.2.length < cs.length := by
  unfold scanWhole at h
  split at h
  · split at h
    · split at h
      · simp at h
      · simp only [Except.ok.injEq] at h
        subst h
        simp
    · simp only [Except.ok.injEq] at h
      subst h
      simp
  · exact someDigits_length h

theorem scanFraction_length {cs : List Char} {r : Option (List Char) × List Char}
    (h : scanFraction cs = .ok r) : r.2.length ≤ cs.length := by
  unfold scanFraction at h
  split at h
  · rename_i tail
    cases hd : someDigits (.at .invalidNumber) tail with
    | error e => simp [hd, Except.map] at h
    | ok d =>
      simp only [hd, Except.map, Except.ok.injEq] at h
      subst h
      have := someDigits_length hd
      simp only [List.length_cons]
      omega
  · simp only [Except.ok.injEq] at h
    subst h
    exact Nat.le_refl _

theorem scanSign_length (cs : List Char) : (scanSign cs).2.length ≤ cs.length := by
  unfold scanSign
  split <;> simp

theorem scanExponent_length {cs : List Char} {r : Option (Bool × List Char) × List Char}
    (h : scanExponent cs = .ok r) : r.2.length ≤ cs.length := by
  unfold scanExponent at h
  split at h
  · rename_i c tail
    split at h
    · have hs := scanSign_length tail
      revert h
      cases hsign : scanSign tail with
      | mk negative tail' =>
        intro h
        rw [hsign] at hs
        simp only at hs h
        cases hd : someDigits (.at .invalidNumber) tail' with
        | error e => simp [hd, Except.map] at h
        | ok d =>
          simp only [hd, Except.map, Except.ok.injEq] at h
          subst h
          have := someDigits_length hd
          simp only [List.length_cons]
          omega
    · simp only [Except.ok.injEq] at h
      subst h
      exact Nat.le_refl _
  · simp only [Except.ok.injEq] at h
    subst h
    exact Nat.le_refl _

/-- A numeral takes at least one character of its text. -/
theorem scan_length {cs rest : List Char} {n : Numeral} (h : scan cs = .ok (n, rest)) :
    rest.length < cs.length := by
  have step (negative : Bool) (tail : List Char) (hle : tail.length ≤ cs.length)
      (h : (do
        let (whole, cs) ← scanWhole tail
        let (fraction, cs) ← scanFraction cs
        let (exponent, cs) ← scanExponent cs
        return (⟨negative, whole, fraction, exponent⟩, cs) : Except Fault (Numeral × List Char))
          = .ok (n, rest)) : rest.length < cs.length := by
    cases hw : scanWhole tail with
    | error e => simp [hw, bind, Except.bind] at h
    | ok w =>
      simp only [hw, bind, Except.bind] at h
      cases hf : scanFraction w.2 with
      | error e => simp [hf] at h
      | ok f =>
        simp only [hf] at h
        cases he : scanExponent f.2 with
        | error e => simp [he] at h
        | ok e =>
          simp only [he, pure, Except.pure, Except.ok.injEq, Prod.mk.injEq] at h
          obtain ⟨-, rfl⟩ := h
          have h1 := scanWhole_length hw
          have h2 := scanFraction_length hf
          have h3 := scanExponent_length he
          omega
  unfold scan at h
  split at h
  rename_i negative tail heq
  refine step negative tail ?_ h
  split at heq <;> simp only [Prod.mk.injEq] at heq <;> obtain ⟨-, rfl⟩ := heq <;> simp

/-! ### The value of a numeral -/

/-- The greatest number of 64 bits. -/
def maxWord : Nat := Nat.pow 2 64 - 1

/-- The greatest exponent that is read to its end. -/
def maxExponent : Nat := Nat.pow 2 31 - 1

/-- Append digits to a significand as long as it fits 64 bits, and say how many did not go in. -/
def accumulate (significand : Nat) : List Char → Nat × Nat
  | [] => (significand, 0)
  | c :: cs =>
    let next := significand * 10 + digitValue c
    if next ≤ maxWord then accumulate next cs else (significand, cs.length + 1)

/-- The number that an exponent's digits write, or how many of them follow the one with which it
becomes too great. -/
def exponentValue (value : Nat) : List Char → Except Nat Nat
  | [] => .ok value
  | c :: cs =>
    let next := value * 10 + digitValue c
    if next ≤ maxExponent then exponentValue next cs else .error cs.length

/-- The value of a numeral; if it is out of range, the number of its last characters that were not
read when that was found. -/
def value (n : Numeral) : Except Nat Number :=
  let (whole, beyond) := accumulate 0 n.whole
  if n.fraction.isNone && n.exponent.isNone && beyond == 0 then
    if !n.negative then .ok (.integer whole)
    else if 0 < whole ∧ whole ≤ Nat.pow 2 63 then .ok (.integer (-(whole : Int)))
    else real whole 0
  else
    let digits := n.fraction.getD []
    let (significand, left) := accumulate whole digits
    let scale : Int := (beyond : Int) - ((digits.length - left : Nat) : Int)
    match n.exponent with
    | none => real significand scale
    | some (negative, ds) =>
      match exponentValue 0 ds with
      | .ok e => real significand (if negative then scale - e else scale + e)
      | .error unread =>
        if significand ≠ 0 ∧ !negative then .error unread
        else .ok (.real (Binary64.zero n.negative))
where
  /-- A significand and a power of ten as a floating-point number. -/
  real (significand : Nat) (scale : Int) : Except Nat Number :=
    match Binary64.ofScaled n.negative significand scale with
    | some x => .ok (.real x)
    | none => .error 0

end Numeral

end ModGraph.Json
