/-!
# Binary floating-point values

A `Binary64` is the bit pattern of a 64-bit binary floating-point number, so two of them are equal
exactly if they are written the same. `ofScaled` reads a decimal: the significand is rounded to the
format, then multiplied or divided by one power of ten and rounded again. A value that leaves the
range of the format is refused. `magnitude?` takes a finite value apart into an integer and a power
of two.
-/

namespace ModGraph.Decimal

/-- A 64-bit binary floating-point number, as its bits. -/
structure Binary64 where
  /-- Sign, exponent and fraction, from the highest bit down. -/
  bits : UInt64
deriving DecidableEq, Repr, Inhabited

/-- The finite value `m * 2 ^ q`. -/
structure Magnitude where
  /-- The integer factor. -/
  m : Nat
  /-- The exponent of the power of two. -/
  q : Int
  /-- Whether the value below is half as far away as the value above. -/
  narrowBelow : Bool

namespace Binary64

/-- The sign bit. -/
def isNegative (x : Binary64) : Bool := x.bits >>> 63 == 1

/-- The value without its sign, if it is finite. -/
def magnitude? (x : Binary64) : Option Magnitude :=
  let e := ((x.bits >>> 52) &&& 0x7FF).toNat
  let f := (x.bits &&& 0xFFFFFFFFFFFFF).toNat
  if e = 0x7FF then none
  else if e = 0 then some ⟨f, -1074, false⟩
  else some ⟨Nat.pow 2 52 + f, (e : Int) - 1075, f == 0 && e > 1⟩

/-! ### Reading a decimal -/

/-- Zero, with its sign. -/
def zero (negative : Bool) : Binary64 := ⟨if negative then 0x8000000000000000 else 0⟩

/-- The greatest power of ten, by exponent, that scales a significand in one step. -/
def topPower : Nat := 308

/-- The power of ten nearest to `10 ^ k`. -/
def power (k : Nat) : Float := Float.ofScientific 1 false k

/-- Divide by ten as often as `k` says, in steps of at most `10 ^ 308`; a value that has become zero
stays zero. -/
def divide (x : Float) (k : Nat) : Float :=
  if k ≤ topPower then x / power k
  else if x == 0 then x
  else divide (x / power topPower) (k - topPower)
termination_by k
decreasing_by simp only [topPower] at *; omega

/-- The number `significand * 10 ^ exponent`, or `none` if it is too large for the format. -/
def ofScaled (negative : Bool) (significand : Nat) (exponent : Int) : Option Binary64 :=
  if significand = 0 then some (zero negative)
  else
    let x := Float.ofNat significand
    let signed (y : Float) : Binary64 := ⟨(if negative then -y else y).toBits⟩
    match exponent with
    | .ofNat k =>
      if k ≤ topPower then
        let y := x * power k
        if y.isInf then none else some (signed y)
      else none
    | .negSucc k => some (signed (divide x (k + 1)))

end Binary64

end ModGraph.Decimal
