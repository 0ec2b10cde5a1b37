/-!
# LinearProbing.Numeric.Single

**Single-precision numbers.** Load factors are given in single precision. A number is its bit pattern:
a sign, eight bits of exponent and 23 bits of fraction. `Single.value` is the rational number that a
finite pattern stands for.
-/

namespace LinearProbing

/-- A single-precision number, by its bit pattern. -/
structure Single where
  /-- Sign, exponent field and fraction, from the highest bit down. -/
  bits : UInt32
  deriving DecidableEq

namespace Single

def isNegative (x : Single) : Bool := Nat.pow 2 31 ≤ x.bits.toNat

def exponentField (x : Single) : Nat := x.bits.toNat / Nat.pow 2 23 % Nat.pow 2 8

/-- The bits of the significand after the leading one. -/
def fraction (x : Single) : Nat := x.bits.toNat % Nat.pow 2 23

/-- A full exponent field is kept for the infinities and for what is not a number. -/
def isFinite (x : Single) : Bool := x.exponentField < 255

def isNaN (x : Single) : Bool := x.exponentField == 255 && x.fraction != 0

/-- The significand as an integer; the leading one is implied unless the exponent field is zero. -/
def mantissa (x : Single) : Nat :=
  if x.exponentField = 0 then x.fraction else Nat.pow 2 23 + x.fraction

/-- The power of two that the significand counts. -/
def exponent (x : Single) : Int := (max x.exponentField 1 : Nat) - 150

/-- The absolute value of a finite number. -/
def magnitude (x : Single) : Rat := (x.mantissa : Rat) * (2 : Rat) ^ x.exponent

/-- The value of a finite number. -/
def value (x : Single) : Rat := if x.isNegative then -x.magnitude else x.magnitude

/-- The number lies strictly between zero and one. -/
def InOpenUnitInterval (x : Single) : Prop :=
  x.isFinite = true ∧ 0 < x.value ∧ x.value < 1

instance (x : Single) : Decidable x.InOpenUnitInterval := by
  unfold InOpenUnitInterval; infer_instance

end Single

end LinearProbing
