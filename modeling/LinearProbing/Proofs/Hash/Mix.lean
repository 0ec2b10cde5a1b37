import LinearProbing.Word
import Mathlib.Data.Set.Function
import Mathlib.Logic.Equiv.Defs

/-!
# LinearProbing.Proofs.Hash.Mix

**Spreading loses nothing.** A multiplication by an odd constant is undone by another one, and a fold by
further folds: folding twice is folding twice as far (`foldDown_foldDown_self`), and a fold as far as the word
is wide does nothing. So `mix64` and `mix32` permute the words of their width, and one fold and one
multiplication lead back (`unmix64`, `unmix32`), for both of them.
-/

namespace LinearProbing

/-! ### Folds -/

section Folds

variable {w : Nat}

/-- A word whose bits are folded onto those that lie so many places lower. -/
def foldDown (places : Nat) (x : BitVec w) : BitVec w := x ^^^ (x >>> places)

theorem foldDown_xor (places : Nat) (x y : BitVec w) :
    foldDown places (x ^^^ y) = foldDown places x ^^^ foldDown places y := by
  simp only [foldDown, BitVec.ushiftRight_xor_distrib]
  ac_rfl

theorem foldDown_ushiftRight (places k : Nat) (x : BitVec w) :
    foldDown places (x >>> k) = foldDown places x >>> k := by
  rw [foldDown, foldDown, BitVec.ushiftRight_xor_distrib, ← BitVec.shiftRight_add,
    ← BitVec.shiftRight_add, Nat.add_comm]

theorem foldDown_comm (places places' : Nat) (x : BitVec w) :
    foldDown places (foldDown places' x) = foldDown places' (foldDown places x) := by
  rw [foldDown.eq_def places', foldDown_xor, foldDown_ushiftRight, ← foldDown]

/-- **Folding twice is folding twice as far.** -/
theorem foldDown_foldDown_self (places : Nat) (x : BitVec w) :
    foldDown places (foldDown places x) = foldDown (places + places) x := by
  rw [foldDown, foldDown, BitVec.ushiftRight_xor_distrib, ← BitVec.shiftRight_add, BitVec.xor_assoc,
    ← BitVec.xor_assoc (x >>> places), BitVec.xor_self, BitVec.zero_xor, foldDown]

theorem foldDown_of_le {places : Nat} (h : w ≤ places) (x : BitVec w) : foldDown places x = x := by
  rw [foldDown, BitVec.ushiftRight_eq_zero h, BitVec.xor_zero]

end Folds

/-! ### Words of 64 bits -/

theorem toBitVec_mix64 (hash : UInt64) :
    (mix64 hash).toBitVec = foldDown 16 (foldDown 32 (hash.toBitVec * golden64.toBitVec)) := rfl

/-- The inverse of the golden ratio, modulo two to the 64. -/
def golden64Inverse : UInt64 := 0xF1DE83E19937733D

/-- The hash that `mix64` spreads to a word. -/
def unmix64 (word : UInt64) : UInt64 := (word ^^^ (word >>> 16)) * golden64Inverse

theorem toBitVec_unmix64 (word : UInt64) :
    (unmix64 word).toBitVec = foldDown 16 word.toBitVec * golden64Inverse.toBitVec := rfl

/-- A third fold undoes the two. -/
theorem foldDown_thrice (x : BitVec 64) : foldDown 16 (foldDown 16 (foldDown 32 x)) = x := by
  rw [foldDown_foldDown_self, foldDown_foldDown_self]
  exact foldDown_of_le (by decide) x

theorem unmix64_mix64 (hash : UInt64) : unmix64 (mix64 hash) = hash := by
  have hinverse : golden64.toBitVec * golden64Inverse.toBitVec = 1#64 := by decide
  rw [← UInt64.toBitVec_inj, toBitVec_unmix64, toBitVec_mix64, foldDown_thrice, BitVec.mul_assoc,
    hinverse, BitVec.mul_one]

theorem mix64_unmix64 (word : UInt64) : mix64 (unmix64 word) = word := by
  have hinverse : golden64Inverse.toBitVec * golden64.toBitVec = 1#64 := by decide
  rw [← UInt64.toBitVec_inj, toBitVec_mix64, toBitVec_unmix64, BitVec.mul_assoc, hinverse,
    BitVec.mul_one, foldDown_comm 32, foldDown_thrice]

/-- Spreading permutes the words of 64 bits. -/
def mix64Equiv : UInt64 ≃ UInt64 := ⟨mix64, unmix64, unmix64_mix64, mix64_unmix64⟩

/-! ### Words of 32 bits -/

theorem toBitVec_mix32 (word : UInt32) :
    (mix32 word).toBitVec = foldDown 16 (word.toBitVec * golden32.toBitVec) := rfl

/-- The inverse of the golden ratio, modulo two to the 32. -/
def golden32Inverse : UInt32 := 0x144CBC89

/-- The word that `mix32` spreads to another one. -/
def unmix32 (word : UInt32) : UInt32 := (word ^^^ (word >>> 16)) * golden32Inverse

theorem toBitVec_unmix32 (word : UInt32) :
    (unmix32 word).toBitVec = foldDown 16 word.toBitVec * golden32Inverse.toBitVec := rfl

/-- A fold by half of the width undoes itself. -/
theorem foldDown_twice (x : BitVec 32) : foldDown 16 (foldDown 16 x) = x := by
  rw [foldDown_foldDown_self]
  exact foldDown_of_le (by decide) x

theorem unmix32_mix32 (word : UInt32) : unmix32 (mix32 word) = word := by
  have hinverse : golden32.toBitVec * golden32Inverse.toBitVec = 1#32 := by decide
  rw [← UInt32.toBitVec_inj, toBitVec_unmix32, toBitVec_mix32, foldDown_twice, BitVec.mul_assoc,
    hinverse, BitVec.mul_one]

theorem mix32_unmix32 (word : UInt32) : mix32 (unmix32 word) = word := by
  have hinverse : golden32Inverse.toBitVec * golden32.toBitVec = 1#32 := by decide
  rw [← UInt32.toBitVec_inj, toBitVec_mix32, toBitVec_unmix32, BitVec.mul_assoc, hinverse,
    BitVec.mul_one, foldDown_twice]

/-- Spreading permutes the words of 32 bits. -/
def mix32Equiv : UInt32 ≃ UInt32 := ⟨mix32, unmix32, unmix32_mix32, mix32_unmix32⟩

end LinearProbing
