/-!
# LinearProbing.Numeric.Double

**Rounding to double precision.** Products and quotients in the sizing of tables are formed in double
precision. A double-precision number is a rational number here, and an operation is the exact result
rounded to the nearest multiple of the unit in the last place, the even one of two (`nearest`).

The magnitudes that occur lie between `2 ^ (-149)` and `2 ^ 211`, well inside the range of normal
numbers, so the exponent is left unbounded.
-/

namespace LinearProbing.Double

/-- The number of bits of a significand. -/
def precision : Nat := 53

/-- The exponent `e` of a positive rational number: `2 ^ e ≤ x < 2 ^ (e + 1)`. -/
def exponent (x : Rat) : Int :=
  let e := (x.num.natAbs.log2 : Int) - (x.den.log2 : Int)
  if x < (2 : Rat) ^ e then e - 1 else e

/-- The integer nearest to a number, the even one of two. -/
def roundTiesToEven (x : Rat) : Int :=
  let below := x.floor
  let rest := x - below
  if rest < 1 / 2 then below
  else if 1 / 2 < rest then below + 1
  else if below % 2 = 0 then below
  else below + 1

/-- The integer nearest to a number, the greater one of two. -/
def roundTiesUp (x : Rat) : Int :=
  (x + 1 / 2).floor

/-- The double-precision number nearest to a non-negative rational number. -/
def nearest (x : Rat) : Rat :=
  if x ≤ 0 then 0
  else
    let unit := (2 : Rat) ^ (exponent x - (precision - 1 : Nat))
    roundTiesToEven (x / unit) * unit

/-- A natural number in double precision. -/
def ofNat (n : Nat) : Rat := nearest n

/-- The product of two non-negative numbers in double precision. -/
def mul (x y : Rat) : Rat := nearest (x * y)

/-- The quotient of two non-negative numbers in double precision. -/
def div (x y : Rat) : Rat := nearest (x / y)

end LinearProbing.Double
