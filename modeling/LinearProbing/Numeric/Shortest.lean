import LinearProbing.Numeric.Single

/-!
# LinearProbing.Numeric.Shortest

**Shortest decimal text of a single-precision number.** Among the decimals that read back as the same
number, the text shows one with the fewest digits and of those the nearest. It never uses an
exponent.

The decimals that read back as `x` are those between the midpoints of `x` and its two neighbours
(`Single.readsBack`); the midpoints themselves belong to `x` when its significand is even. On each
decimal grid only the two grid points around `x` need to be tried.
-/

namespace LinearProbing

/-! ### The decimals that read back -/

namespace Single

/-- Half the distance to the next number upwards. -/
def upperGap (x : Single) : Rat := (2 : Rat) ^ (x.exponent - 1)

/-- Half the distance to the next number downwards: below a power of two the numbers lie twice as
dense. -/
def lowerGap (x : Single) : Rat :=
  if x.fraction = 0 ∧ 1 < x.exponentField then (2 : Rat) ^ (x.exponent - 2)
  else (2 : Rat) ^ (x.exponent - 1)

/-- Reading the decimal `d` gives the magnitude of `x`. -/
def readsBack (x : Single) (d : Rat) : Bool :=
  let low := x.magnitude - x.lowerGap
  let high := x.magnitude + x.upperGap
  if x.mantissa % 2 = 0 then low ≤ d && d ≤ high else low < d && d < high

end Single

/-! ### Decimals -/

/-- The decimal number `digits · 10 ^ scale`. -/
structure Decimal where
  digits : Nat
  /-- The power of ten that the last digit counts. -/
  scale : Int
  deriving DecidableEq

namespace Decimal

/-- The value of a decimal. -/
def value (d : Decimal) : Rat := (d.digits : Rat) * (10 : Rat) ^ d.scale

/-- The exponent `e` with `10 ^ e ≤ x < 10 ^ (e + 1)`, searched for downwards from `start`. -/
def leadingExponent (x : Rat) : (fuel : Nat) → (start : Int) → Int
  | 0, e => e
  | fuel + 1, e => if (10 : Rat) ^ e ≤ x then e else leadingExponent x fuel (e - 1)

/-- Of the two points of the grid `10 ^ scale` around `x`, the one that reads back; of two the
nearer one, and the upper one when both are equally near. -/
def onGrid? (x : Single) (scale : Int) : Option Decimal :=
  let exact := x.magnitude / (10 : Rat) ^ scale
  let below : Decimal := ⟨exact.floor.toNat, scale⟩
  let above : Decimal := ⟨exact.floor.toNat + 1, scale⟩
  match x.readsBack below.value, x.readsBack above.value with
  | true, true => if x.magnitude - below.value < above.value - x.magnitude then below else above
  | true, false => some below
  | false, true => some above
  | false, false => none

/-- The first grid with a point that reads back, from `scale` on to finer ones. -/
def firstGrid (x : Single) : (fuel : Nat) → (scale : Int) → Decimal
  | 0, scale => ⟨(x.magnitude / (10 : Rat) ^ scale).floor.toNat, scale⟩
  | fuel + 1, scale => (onGrid? x scale).getD (firstGrid x fuel (scale - 1))

/-- The shortest decimal that reads back as the magnitude of a finite number that is not zero. Nine
digits always suffice. -/
def shortest (x : Single) : Decimal :=
  firstGrid x 9 (leadingExponent x.magnitude 90 39)

/-- Positional notation: no exponent, no point unless digits follow it, one zero before a leading
point. -/
def toText (d : Decimal) : String :=
  let digits := Nat.toDigits 10 d.digits
  if 0 ≤ d.scale then
    String.ofList (digits ++ List.replicate d.scale.toNat '0')
  else
    let places := (-d.scale).toNat
    let padded := List.replicate (places + 1 - digits.length) '0' ++ digits
    let whole := padded.take (padded.length - places)
    let rest := padded.drop (padded.length - places)
    let kept := (rest.reverse.dropWhile (· == '0')).reverse
    if kept.isEmpty then String.ofList whole
    else String.ofList (whole ++ '.' :: kept)

end Decimal

namespace Single

/-- The text of a number: the shortest decimal that reads back, with the sign kept for zero too. -/
def toText (x : Single) : String :=
  if x.isNaN then "NaN"
  else
    let sign := if x.isNegative then "-" else ""
    let size :=
      if ¬ x.isFinite then "inf"
      else if x.mantissa = 0 then "0"
      else (Decimal.shortest x).toText
    sign ++ size

end Single

end LinearProbing
