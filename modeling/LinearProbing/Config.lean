import LinearProbing.Numeric.Single

/-!
# LinearProbing.Config

**What a table is built from**: a requested capacity, a load factor and where the state of a running
scan is kept.
-/

namespace LinearProbing

/-- The fewest slots of a table. -/
def minCapacity : Nat := 8

/-- The most slots of a table. -/
def maxCapacity : Nat := Nat.pow 2 62

/-- One more than the greatest number of slots or entries that can be written: sizes are words of 64 bits. -/
def sizeLimit : Nat := Nat.pow 2 64

/-- The load factor where none is chosen: the single-precision number next to 0.65. -/
def defaultLoadFactor : Single := ⟨0x3f266666⟩

/-- Where a cursor keeps the state of its scan. -/
inductive IterationMode where
  /-- In the table; opening a cursor starts that scan anew. -/
  | cached
  | fresh
  deriving DecidableEq

/-- The choices made when a table is built. -/
structure TableConfig where
  capacity : Nat := minCapacity
  loadFactor : Single := defaultLoadFactor
  mode : IterationMode := .cached
  deriving DecidableEq

end LinearProbing
