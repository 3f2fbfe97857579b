import ModGraph.Decimal.Binary64

/-!
# The fewest digits that read back

A finite value stands for the interval of reals that round to it. `shortest` takes the coarsest
decimal grid that has a point in that interval and on it the point nearest to the value; of two
equally near ones the even one. The grid points next to the value are found by one exact division and
tested by exact comparisons of natural numbers.

`Layout.render` lays such a decimal out: positionally where the exponent of its leading digit is
small, in scientific notation otherwise.
-/

namespace ModGraph.Decimal

/-- The decimal `digits * 10 ^ exponent`. -/
structure Scientific where
  /-- The significand, as an integer. -/
  digits : Nat
  /-- The exponent of the power of ten. -/
  exponent : Int
deriving DecidableEq, Repr

/-- Compare `a * 10 ^ i` with `n * 2 ^ j`, exactly. -/
def compareScaled (a : Nat) (i : Int) (n : Nat) (j : Int) : Ordering :=
  compare (a * Nat.pow 10 i.toNat * Nat.pow 2 (-j).toNat)
    (n * Nat.pow 2 j.toNat * Nat.pow 10 (-i).toNat)

namespace Magnitude

/-- Whether a decimal lies among the reals that round to the value: to nearest, ties to even. -/
def readsBack (x : Magnitude) (d : Scientific) : Bool :=
  let low := if x.narrowBelow then 4 * x.m - 1 else 4 * x.m - 2
  let high := 4 * x.m + 2
  let closed := x.m % 2 == 0
  let above := compareScaled d.digits d.exponent low (x.q - 2)
  let below := compareScaled d.digits d.exponent high (x.q - 2)
  (above == .gt || (closed && above == .eq)) && (below == .lt || (closed && below == .eq))

/-- The number of digits before the decimal point: the least `k` with `m * 2 ^ q < 10 ^ k`, looked for
from an estimate on. -/
def scale (x : Magnitude) : Int :=
  let estimate := ((x.m.log2 : Int) + x.q) * 30103 / 100000
  let fits (k : Int) : Bool := compareScaled 1 k x.m x.q == .gt
  ((List.range 4).map fun (i : Nat) => estimate - 1 + (i : Int)).find? fits |>.getD (estimate + 3)

/-- The two points of the grid `10 ^ e` next to the value, the lower one first, and whether the upper
one is the nearer, the lower one, or neither. -/
def neighbours (x : Magnitude) (e : Int) : Nat × Ordering :=
  let numerator := x.m * Nat.pow 2 x.q.toNat * Nat.pow 10 (-e).toNat
  let denominator := Nat.pow 2 (-x.q).toNat * Nat.pow 10 e.toNat
  (numerator / denominator, compare (2 * (numerator % denominator)) denominator)

/-- The point of the grid `10 ^ e` that reads back and is nearest to the value, if one reads back. -/
def onGrid? (x : Magnitude) (e : Int) : Option Nat :=
  let (low, nearer) := x.neighbours e
  match x.readsBack ⟨low, e⟩, x.readsBack ⟨low + 1, e⟩ with
  | false, false => none
  | true, false => some low
  | false, true => some (low + 1)
  | true, true =>
    match nearer with
    | .lt => some low
    | .gt => some (low + 1)
    | .eq => some (if low % 2 = 0 then low else low + 1)

end Magnitude

/-- The same decimal without trailing zeros. -/
def Scientific.strip (d : Nat) (e : Int) : Scientific :=
  if h : 0 < d ∧ d % 10 = 0 then strip (d / 10) (e + 1) else ⟨d, e⟩
termination_by d
decreasing_by omega

/-- The decimal of fewest digits that reads back, without trailing zeros. No value needs more than
seventeen digits. -/
def Magnitude.shortest (x : Magnitude) : Scientific :=
  let k := x.scale
  let hit := (List.range 17).findSome? fun (n : Nat) =>
    let e := k - ((n : Int) + 1)
    (x.onGrid? e).map fun d => (d, e)
  match hit with
  | some (d, e) => Scientific.strip d e
  | none => Scientific.strip (x.neighbours (k - 17)).1 (k - 17)

/-! ### Layout -/

/-- How a number's digits are laid out. -/
structure Layout where
  /-- The least exponent of the leading digit that is written positionally. -/
  plainFrom : Int
  /-- The least exponent above those that are written positionally. -/
  plainBelow : Int

namespace Layout

/-- The digits of a natural number. -/
def digits (n : Nat) : List Char := Nat.toDigits 10 n

/-- A decimal with the point, `exponent` being that of its leading digit. -/
def plain (ds : List Char) (exponent : Int) : List Char :=
  if exponent < 0 then
    ['0', '.'] ++ List.replicate (-exponent - 1).toNat '0' ++ ds
  else
    let whole := exponent.toNat + 1
    if ds.length ≤ whole then ds ++ List.replicate (whole - ds.length) '0' ++ ['.', '0']
    else ds.take whole ++ ['.'] ++ ds.drop whole

/-- A decimal with one digit before the point and the exponent after it, its sign always written. -/
def scientific (ds : List Char) (exponent : Int) : List Char :=
  let point := if ds.length ≤ 1 then [] else ['.'] ++ ds.drop 1
  let sign := if exponent < 0 then '-' else '+'
  ds.take 1 ++ point ++ ['e', sign] ++ digits exponent.natAbs

/-- The text of a decimal. -/
def decimal (style : Layout) (d : Scientific) : List Char :=
  let ds := digits d.digits
  let exponent := d.exponent + (ds.length : Int) - 1
  if style.plainFrom ≤ exponent ∧ exponent < style.plainBelow then plain ds exponent
  else scientific ds exponent

/-- The text of a value; of one that is not finite, nothing. -/
def render (style : Layout) (x : Binary64) : List Char :=
  let sign := if x.isNegative then ['-'] else []
  match x.magnitude? with
  | none => []
  | some v => sign ++ (if v.m = 0 then ['0', '.', '0'] else style.decimal v.shortest)

end Layout

end ModGraph.Decimal
