import LinearProbing.Word
import Mathlib.Algebra.Group.Nat.Defs
import Mathlib.Logic.Function.Basic

/-!
# LinearProbing.Proofs.Word

**Words count modulo a power of two.** `SignedWord` only names the operations of a word; a
`LawfulSignedWord` is one whose operations are those of the integers, wrapped around at its width.
-/

namespace LinearProbing

/-- A word stands for an integer, and its operations wrap around at its width. -/
class LawfulSignedWord (α : Type) [SignedWord α] where
  width : Nat
  ofInt_toInt : ∀ x : α, SignedWord.ofInt (SignedWord.toInt x) = x
  toInt_ofInt : ∀ i : Int, SignedWord.toInt (SignedWord.ofInt i : α) = i.bmod (2 ^ width)
  wrappingAdd_eq : ∀ x y : α, SignedWord.wrappingAdd x y =
    SignedWord.ofInt (SignedWord.toInt x + SignedWord.toInt y)
  wrappingSub_eq : ∀ x y : α, SignedWord.wrappingSub x y =
    SignedWord.ofInt (SignedWord.toInt x - SignedWord.toInt y)

instance : LawfulSignedWord Int32 where
  width := 32
  ofInt_toInt := Int32.ofInt_toInt
  toInt_ofInt _ := Int32.toInt_ofInt
  wrappingAdd_eq x y := by
    change x + y = Int32.ofInt (x.toInt + y.toInt)
    rw [Int32.ofInt_add, Int32.ofInt_toInt, Int32.ofInt_toInt]
  wrappingSub_eq x y := by
    change x - y = Int32.ofInt (x.toInt - y.toInt)
    rw [Int32.ofInt_sub, Int32.ofInt_toInt, Int32.ofInt_toInt]

instance : LawfulSignedWord Int64 where
  width := 64
  ofInt_toInt := Int64.ofInt_toInt
  toInt_ofInt _ := Int64.toInt_ofInt
  wrappingAdd_eq x y := by
    change x + y = Int64.ofInt (x.toInt + y.toInt)
    rw [Int64.ofInt_add, Int64.ofInt_toInt, Int64.ofInt_toInt]
  wrappingSub_eq x y := by
    change x - y = Int64.ofInt (x.toInt - y.toInt)
    rw [Int64.ofInt_sub, Int64.ofInt_toInt, Int64.ofInt_toInt]

namespace SignedWord

variable {α : Type} [SignedWord α]

/-- A word and an integer, with wrap-around. -/
def plus (x : α) (amount : Int) : α := ofInt (toInt x + amount)

variable [LawfulSignedWord α]

theorem toInt_injective : Function.Injective (toInt : α → Int) :=
  Function.LeftInverse.injective LawfulSignedWord.ofInt_toInt

/-- Congruent integers are the same word. -/
theorem ofInt_eq_ofInt {i j : Int}
    (h : i.bmod (2 ^ LawfulSignedWord.width α) = j.bmod (2 ^ LawfulSignedWord.width α)) :
    (ofInt i : α) = ofInt j :=
  toInt_injective <| by rw [LawfulSignedWord.toInt_ofInt, LawfulSignedWord.toInt_ofInt, h]

theorem toInt_zero : toInt (zero : α) = 0 := by
  rw [zero, LawfulSignedWord.toInt_ofInt, Int.zero_bmod]

theorem plus_zero (x : α) : plus x 0 = x := by
  rw [plus, Int.add_zero, LawfulSignedWord.ofInt_toInt]

theorem wrappingAdd_eq_plus (x y : α) : wrappingAdd x y = plus x (toInt y) :=
  LawfulSignedWord.wrappingAdd_eq x y

theorem wrappingAdd_zero (x : α) : wrappingAdd x zero = x := by
  rw [wrappingAdd_eq_plus, toInt_zero, plus_zero]

theorem plus_toInt_ofInt (x : α) (i : Int) : plus x (toInt (ofInt i : α)) = plus x i :=
  ofInt_eq_ofInt <| by rw [LawfulSignedWord.toInt_ofInt, Int.add_bmod_bmod]

/-- Amounts that are added one after the other are added up. -/
theorem plus_plus (x : α) (i j : Int) : plus (plus x i) j = plus x (i + j) :=
  ofInt_eq_ofInt <| by rw [plus, LawfulSignedWord.toInt_ofInt, Int.bmod_add_bmod, Int.add_assoc]

/-- The step down is minus one. -/
theorem wrappingSub_zero_one : wrappingSub (zero : α) one = ofInt (-1) := by
  rw [LawfulSignedWord.wrappingSub_eq, toInt_zero]
  refine ofInt_eq_ofInt ?_
  rw [one, LawfulSignedWord.toInt_ofInt, Int.sub_bmod_bmod]
  rfl

end SignedWord

end LinearProbing
