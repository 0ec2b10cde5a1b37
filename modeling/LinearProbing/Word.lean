import LinearProbing.Hash.Mix

/-!
# LinearProbing.Word

**Signed words.** The keys and values that a table holds inline are two's-complement words of 32 or
64 bits. `SignedWord` gives what the containers need of them: equality, wrapping addition and
subtraction, the way to and from integers, and the spread hash that decides the home slot.
-/

namespace LinearProbing

/-- A two's-complement word of fixed width. -/
class SignedWord (α : Type) where
  decEq : DecidableEq α
  toInt : α → Int
  /-- The word congruent to an integer modulo two to the width. -/
  ofInt : Int → α
  wrappingAdd : α → α → α
  wrappingSub : α → α → α
  least : α
  greatest : α
  /-- The hash of a word used as a key; its low bits are the home slot. -/
  spread : α → UInt64

namespace SignedWord

variable {α : Type} [SignedWord α]

instance : DecidableEq α := SignedWord.decEq

/-- Keys in slots that were never used are zero. -/
def zero : α := ofInt 0

def one : α := ofInt 1

/-- Minus one: the value that stands for "no value" where none is chosen, and the content of a
vacant slot of a set. -/
def minusOne : α := ofInt (-1)

instance : Inhabited α := ⟨zero⟩

end SignedWord

instance : SignedWord Int32 where
  decEq := inferInstance
  toInt := Int32.toInt
  ofInt := Int32.ofInt
  wrappingAdd := (· + ·)
  wrappingSub := (· - ·)
  least := Int32.minValue
  greatest := Int32.maxValue
  spread k := (mix32 k.toUInt32).toUInt64

instance : SignedWord Int64 where
  decEq := inferInstance
  toInt := Int64.toInt
  ofInt := Int64.ofInt
  wrappingAdd := (· + ·)
  wrappingSub := (· - ·)
  least := Int64.minValue
  greatest := Int64.maxValue
  spread k := mix64 k.toUInt64

/-- The home slot of a word under a mask: the bits of its spread hash that the mask keeps. -/
def homeIndex {α : Type} [SignedWord α] (key : α) (mask : UInt64) : UInt64 :=
  SignedWord.spread key &&& mask

/-! ### Pairs of 32-bit words as one 64-bit word -/

/-- Two 32-bit words side by side: the first in the high half, the second in the low half. -/
def composeKey (a b : Int32) : Int64 :=
  ((a.toUInt32.toUInt64 <<< 32) ||| b.toUInt32.toUInt64).toInt64

/-- The two halves of a 64-bit word. -/
def splitKey (k : Int64) : Int32 × Int32 :=
  ((k.toUInt64 >>> 32).toUInt32.toInt32, k.toUInt64.toUInt32.toInt32)

end LinearProbing
