import LinearProbing.Numeric.Shortest

/-!
# LinearProbing.Error

**Refusals.** Why a container is not built, or a value is not stored. Each cause is a constructor, and
`TableError.message` is the one place that words them.
-/

namespace LinearProbing

/-- Why a construction or a store was refused. -/
inductive TableError where
  /-- The load factor does not lie strictly between zero and one. -/
  | invalidLoadFactor (loadFactor : Single)
  | zeroCapacity
  /-- The requested capacity is beyond the largest power of two that a table may have. -/
  | capacityOverflow (requested : Nat)
  /-- The value stands for "no value" in this map, so it cannot be stored; given by its text. -/
  | missingValue (text : String)
  | nullValue
  deriving DecidableEq

namespace TableError

def message : TableError → String
  | invalidLoadFactor loadFactor => "load factor must be in (0, 1), got " ++ loadFactor.toText
  | zeroCapacity => "requested capacity must be positive"
  | capacityOverflow requested =>
    "requested capacity " ++ Nat.repr requested ++ " exceeds the maximum table capacity"
  | missingValue text => "cannot store the missing value " ++ text ++ " as a value"
  | nullValue => "this map does not accept null values"

/-- The refusal concerns the construction of a container, not its use. -/
def isConfig : TableError → Bool
  | invalidLoadFactor _ | zeroCapacity | capacityOverflow _ => true
  | missingValue _ | nullValue => false

end TableError

end LinearProbing
