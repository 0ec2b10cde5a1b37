import LinearProbing.Config
import LinearProbing.Error
import LinearProbing.Numeric.Double

/-!
# LinearProbing.Sizing

**The size of a table**: how many slots it has, and how many of them may be occupied before it grows.

The capacity is a power of two between `minCapacity` and `maxCapacity`. The threshold is the capacity
times the load factor, rounded down. A table grows by doubling until its entries fit
(`Sizing.grownFor?`), and is compacted to the least capacity that holds them (`Sizing.compactedFor?`). Either
search may find no capacity.
-/

namespace LinearProbing

/-- The number of occupied slots that a load factor allows: the product, formed in double precision,
without its fractional part. -/
def threshold (capacity : Nat) (loadFactor : Single) : Nat :=
  (Double.mul (Double.ofNat capacity) loadFactor.value).floor.toNat

/-- The least power of two that is not below `n`. -/
def leastPowerOfTwo (n : Nat) : Nat :=
  if n ≤ 1 then 1 else Nat.pow 2 ((n - 1).log2 + 1)

/-- The capacity of a table that is asked for `requested` slots: the least power of two that is neither
smaller nor below `minCapacity`. -/
def capacityFor (requested : Nat) : Except TableError Nat :=
  if requested = 0 then .error .zeroCapacity
  else if maxCapacity < requested then .error (.capacityOverflow requested)
  else .ok (leastPowerOfTwo (max requested minCapacity))

/-- Capacity, load factor and the threshold that follows from them. -/
structure Sizing where
  capacity : Nat
  loadFactor : Single
  threshold : Nat
  deriving DecidableEq

namespace Sizing

/-- The sizing with a given number of slots. -/
def ofCapacity (capacity : Nat) (loadFactor : Single) : Sizing :=
  { capacity, loadFactor, threshold := LinearProbing.threshold capacity loadFactor }

/-- The sizing of a table built without a configuration. -/
def standard : Sizing := ofCapacity minCapacity defaultLoadFactor

/-- The sizing that a configuration asks for. A wrong load factor is reported before a wrong
capacity. -/
def ofConfig (config : TableConfig) : Except TableError Sizing :=
  if config.loadFactor.InOpenUnitInterval then
    (capacityFor config.capacity).map (ofCapacity · config.loadFactor)
  else
    .error (.invalidLoadFactor config.loadFactor)

/-- So many entries are more than the threshold allows. -/
def exceededBy (s : Sizing) (len : Nat) : Bool := s.threshold < len

/-- Doubles a capacity, once at least, until `len` entries fit under the load factor. There is no
such capacity when that would pass `maxCapacity`. -/
def doubledCapacity? (loadFactor : Single) (len : Nat) : (doublings : Nat) → (capacity : Nat) → Option Nat
  | 0, _ => none
  | doublings + 1, capacity =>
    let doubled := 2 * capacity
    -- the bound is on the capacity, before anything is allocated
    if maxCapacity < doubled then none
    else if len ≤ LinearProbing.threshold doubled loadFactor then some doubled
    else doubledCapacity? loadFactor len doublings doubled

/-- The sizing of a table that has to grow to hold `len` entries, `none` when it cannot grow that
far. No table can be doubled more than 62 times. -/
def grownFor? (s : Sizing) (len : Nat) : Option Sizing :=
  (doubledCapacity? s.loadFactor len 62 s.capacity).map (ofCapacity · s.loadFactor)

/-- The first of a capacity and its doubles under which `len` entries fit. There is none when doubling leaves
the range of sizes, which happens within 64 steps. -/
def sufficientCapacity? (loadFactor : Single) (len : Nat) : (doublings : Nat) → (capacity : Nat) → Option Nat
  | 0, _ => none
  | doublings + 1, capacity =>
    if len ≤ LinearProbing.threshold capacity loadFactor then some capacity
    -- twice a capacity of half the range is no size any more
    else if sizeLimit ≤ 2 * capacity then none
    else sufficientCapacity? loadFactor len doublings (2 * capacity)

/-- The capacity at which `len` entries would just fill the load factor, as a first guess: the
quotient in double precision, rounded to an integer, or the greatest size if that is out of range. -/
def idealCapacity (loadFactor : Single) (len : Nat) : Nat :=
  min (Double.roundTiesUp (Double.div (Double.ofNat len) loadFactor.value)).toNat (sizeLimit - 1)

/-- The least sizing that holds `len` entries. The guess may fall one power of two short, and is
doubled until the entries fit. There is none when the guess or one of its doubles is out of the range of
sizes; it may be one that no table can have, but then it is not smaller than that of any table. -/
def compactedFor? (s : Sizing) (len : Nat) : Option Sizing :=
  let guess := leastPowerOfTwo (max (idealCapacity s.loadFactor len) minCapacity)
  if sizeLimit ≤ guess then none
  else (sufficientCapacity? s.loadFactor len 64 guess).map (ofCapacity · s.loadFactor)

end Sizing

end LinearProbing
