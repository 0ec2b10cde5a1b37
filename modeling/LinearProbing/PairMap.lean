import LinearProbing.WordKeyMap

/-!
# LinearProbing.PairMap

**Maps whose keys are pairs of 32-bit words.** The pair is stored as one 64-bit word, its two components
side by side, in a map from words to values that holds no nulls.
-/

namespace LinearProbing

/-- A map from pairs of words to values. -/
structure PairMap (ν : Type) where
  inner : WordKeyMap Int64 ν

namespace PairMap

variable {ν : Type}

/-- A map without entries, of the standard size. -/
def empty : PairMap ν := ⟨.empty .nonNull {}⟩

/-- A map without entries, built as a configuration asks. -/
def ofConfig (config : TableConfig) : Except TableError (PairMap ν) :=
  (ValueMap.ofConfig config .nonNull ({} : Spreading)).map PairMap.mk

def ofCapacity (capacity : Nat) (loadFactor : Single) : Except TableError (PairMap ν) :=
  ofConfig { capacity, loadFactor }

def copy (m : PairMap ν) : PairMap ν := ⟨m.inner.copy⟩

def len (m : PairMap ν) : Nat := m.inner.len

def capacity (m : PairMap ν) : Nat := m.inner.capacity

/-- The key of a pair in the map inside. -/
def keyOf (pair : Int32 × Int32) : Int64 := composeKey pair.1 pair.2

/-- The entries, in slot order. -/
def entries (m : PairMap ν) : List ((Int32 × Int32) × ν) :=
  m.inner.valueEntries.map fun e => (splitKey e.1, e.2)

def get? (m : PairMap ν) (pair : Int32 × Int32) : Option ν := m.inner.get? (keyOf pair)

def contains (m : PairMap ν) (pair : Int32 × Int32) : Bool := m.inner.contains (keyOf pair)

def containsValue [BEq ν] (m : PairMap ν) (value : ν) : Bool := m.inner.containsValue value

/-! ### Storing and removing -/

/-- Stores a value under a pair; the result is the former value. -/
def insert (m : PairMap ν) (pair : Int32 × Int32) (value : ν) : Change (PairMap ν) (Option ν) :=
  (m.inner.insert (keyOf pair) value).within PairMap.mk

/-- Stores a value under an absent pair; the result is the value that was there. -/
def insertIfAbsent (m : PairMap ν) (pair : Int32 × Int32) (value : ν) :
    Change (PairMap ν) (Option ν) :=
  (m.inner.insertIfAbsent (keyOf pair) value).within PairMap.mk

/-- Stores the entries of a list, one after the other. -/
def extend (m : PairMap ν) (entries : List ((Int32 × Int32) × ν)) : Change (PairMap ν) Unit :=
  Change.forEach (fun m e => m.insert e.1 e.2) entries m

def ofEntries (entries : List ((Int32 × Int32) × ν)) : Change (PairMap ν) Unit :=
  empty.extend entries

/-- Overwrites the value of a present pair; the result is the former value. -/
def replace (m : PairMap ν) (pair : Int32 × Int32) (value : ν) : Option ν × PairMap ν :=
  (m.inner.replace (keyOf pair) value).map id PairMap.mk

/-- Rewrites the value under a pair; the result is the new value. -/
def modify (m : PairMap ν) (pair : Int32 × Int32) (f : ν → ν) : Option ν × PairMap ν :=
  (m.inner.modify (keyOf pair) f).map id PairMap.mk

/-- Removes a pair; the result is its value. -/
def erase (m : PairMap ν) (pair : Int32 × Int32) : Option ν × PairMap ν :=
  (m.inner.erase (keyOf pair)).map id PairMap.mk

/-- Removes a pair if it has the value; says whether it had. -/
def eraseIfValue [BEq ν] (m : PairMap ν) (pair : Int32 × Int32) (value : ν) : Bool × PairMap ν :=
  (m.inner.eraseIfValue (keyOf pair) value).map id PairMap.mk

/-- Removes the entries that a predicate selects; says whether any was removed. -/
def eraseWhere (m : PairMap ν) (selects : Int32 × Int32 → ν → Reply Bool) :
    Call (PairMap ν) ((Int32 × Int32) × ν) Bool :=
  let selectsStored (key : Int64) : Option ν → Reply Bool
    | none => .answers false
    | some value => selects (splitKey key) value
  let swept := (m.inner.eraseWhere selectsStored).within PairMap.mk
  { toChange := swept.toChange
    calls := swept.calls.filterMap fun e => e.2.map (splitKey e.1, ·) }

/-- Removes the entries that a predicate does not keep. -/
def retain (m : PairMap ν) (keeps : Int32 × Int32 → ν → Reply Bool) :
    Call (PairMap ν) ((Int32 × Int32) × ν) Unit :=
  (m.eraseWhere fun pair value => (keeps pair value).map not).map fun _ => ()

/-- Shows every entry to a function. -/
def forEach (m : PairMap ν) (f : Int32 × Int32 → ν → Reply Unit) :
    Call (PairMap ν) ((Int32 × Int32) × ν) Unit :=
  .forEach (fun e => f e.1 e.2) m m.entries

def clear (m : PairMap ν) : PairMap ν := ⟨m.inner.clear⟩

/-- Moves the entries to the least table that holds them. -/
def compact (m : PairMap ν) : Change (PairMap ν) Unit := m.inner.compact.within PairMap.mk

/-! ### Computing -/

/-- The value of a pair; if the pair is absent, a function computes the value and it is stored. -/
def computeIfAbsent (m : PairMap ν) (pair : Int32 × Int32)
    (f : Int32 × Int32 → Reply (Option ν)) : Call (PairMap ν) (Int32 × Int32) (Option ν) :=
  ((m.inner.computeIfAbsent (keyOf pair) fun _ => f pair).within PairMap.mk).mapCalls fun _ => pair

/-- Computes a new value for a present pair. -/
def computeIfPresent (m : PairMap ν) (pair : Int32 × Int32)
    (f : Int32 × Int32 → ν → Reply (Option ν)) :
    Call (PairMap ν) ((Int32 × Int32) × ν) (Option ν) :=
  ((m.inner.computeIfPresent (keyOf pair) fun _ value => f pair value).within PairMap.mk).mapCalls
    fun e => (pair, e.2)

/-- Computes a new value from the current one, if there is one. -/
def compute (m : PairMap ν) (pair : Int32 × Int32)
    (f : Int32 × Int32 → Option ν → Reply (Option ν)) :
    Call (PairMap ν) ((Int32 × Int32) × Option ν) (Option ν) :=
  ((m.inner.compute (keyOf pair) fun _ old => f pair old).within PairMap.mk).mapCalls
    fun e => (pair, e.2)

/-- Stores a value under an absent pair, or combines the current value with it. -/
def merge (m : PairMap ν) (pair : Int32 × Int32) (value : ν) (f : ν → ν → Reply (Option ν)) :
    Call (PairMap ν) (ν × ν) (Option ν) :=
  (m.inner.merge (keyOf pair) value f).within PairMap.mk

/-! ### Comparing and showing -/

def beq [BEq ν] (m other : PairMap ν) : Bool := m.inner == other.inner

instance [BEq ν] : BEq (PairMap ν) := ⟨beq⟩

/-- The map holds the entries of a list of distinct pairs, and no others. -/
def beqEntries [BEq ν] (m : PairMap ν) (entries : List ((Int32 × Int32) × ν)) : Bool :=
  m.len == entries.length && entries.all fun e => m.get? e.1 == some e.2

/-- The content hash of the map, with its keys hashed as pairs. -/
def hashCode [Digest] [ContentHash ν] (m : PairMap ν) : UInt64 := mapContentHash m.entries

/-- The plain text of the map, with the components of a key joined by a low line. -/
def toText [Render ν] (m : PairMap ν) : String :=
  braced <| m.entries.map fun e =>
    wordText e.1.1 ++ "_" ++ wordText e.1.2 ++ "=" ++ Render.plain e.2

def detailedText [Render ν] (m : PairMap ν) : String := detailedMap m.entries

end PairMap

end LinearProbing
