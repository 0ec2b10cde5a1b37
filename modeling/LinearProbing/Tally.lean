import LinearProbing.WordMap

/-!
# LinearProbing.Tally

**Counters.** A tally counts for every key, from an initial value on; only the keys whose count differs
from it take up slots. It is a word map whose missing value is the initial value: a count that comes
back to it is removed.
-/

namespace LinearProbing

/-- A count for every key. -/
structure Tally (κ ν : Type) where
  counts : WordMap κ ν

namespace Tally

variable {κ ν : Type} [SignedWord κ] [SignedWord ν]

/-- A tally of the standard size in which every count is the initial value. -/
def empty (initial : ν) : Tally κ ν := ⟨.empty initial⟩

/-- A tally in which every count is the initial value, built as a configuration asks. -/
def ofConfig (config : TableConfig) (initial : ν) : Except TableError (Tally κ ν) :=
  (WordMap.ofConfig config initial).map Tally.mk

omit [SignedWord κ] [SignedWord ν] in
/-- The count of the keys that take up no slot. -/
def initial (t : Tally κ ν) : ν := t.counts.missing

omit [SignedWord κ] [SignedWord ν] in
/-- The number of keys whose count differs from the initial value. -/
def len (t : Tally κ ν) : Nat := t.counts.len

omit [SignedWord κ] [SignedWord ν] in
def capacity (t : Tally κ ν) : Nat := t.counts.capacity

/-- The keys whose count differs from the initial value, with their counts, in slot order. -/
def entries (t : Tally κ ν) : List (κ × ν) := t.counts.entries

def get (t : Tally κ ν) (key : κ) : ν := t.counts.get key

/-- The count of the key differs from the initial value. -/
def contains (t : Tally κ ν) (key : κ) : Bool := t.counts.contains key

/-! ### Setting and adding -/

/-- Sets the count of a key; the result is the former count. -/
def set (t : Tally κ ν) (key : κ) (count : ν) : Change (Tally κ ν) ν :=
  if count = t.initial then
    -- the initial value is not stored: a key with that count has no entry
    let (old, counts) := t.counts.erase key
    .done ⟨counts⟩ old
  else (t.counts.store key count).within Tally.mk

/-- Sets the count of a key back to the initial value; the result is the former count. -/
def erase (t : Tally κ ν) (key : κ) : ν × Tally κ ν := (t.counts.erase key).map id Tally.mk

/-- Adds to the count of a key, with wrap-around; the result is the former count and the new one.
Adding nothing changes nothing. -/
def add (t : Tally κ ν) (key : κ) (amount : ν) : Change (Tally κ ν) (ν × ν) :=
  -- the former count is read even where nothing is added
  let old := t.get key
  if amount = SignedWord.zero then .done t (old, old)
  else
    let sum (_ : κ) (count : ν) : Reply ν := .answers (SignedWord.wrappingAdd count amount)
    ((t.counts.compute key sum).toChange.within Tally.mk).map fun new => (old, new)

/-- Adds to the count of a key; the result is the new count. -/
def addAndGet (t : Tally κ ν) (key : κ) (amount : ν) : Change (Tally κ ν) ν :=
  (t.add key amount).map Prod.snd

/-- Adds to the count of a key; the result is the former count. -/
def getAndAdd (t : Tally κ ν) (key : κ) (amount : ν) : Change (Tally κ ν) ν :=
  (t.add key amount).map Prod.fst

/-- The step down: zero less one. -/
def down : ν := SignedWord.wrappingSub SignedWord.zero SignedWord.one

/-- Counts a key up; the result is the new count. -/
def incrementAndGet (t : Tally κ ν) (key : κ) : Change (Tally κ ν) ν := t.addAndGet key SignedWord.one

/-- Counts a key down; the result is the new count. -/
def decrementAndGet (t : Tally κ ν) (key : κ) : Change (Tally κ ν) ν := t.addAndGet key down

/-- Counts a key up; the result is the former count. -/
def getAndIncrement (t : Tally κ ν) (key : κ) : Change (Tally κ ν) ν := t.getAndAdd key SignedWord.one

/-- Counts a key down; the result is the former count. -/
def getAndDecrement (t : Tally κ ν) (key : κ) : Change (Tally κ ν) ν := t.getAndAdd key down

/-! ### Extreme counts -/

def lesser (x y : ν) : ν := if SignedWord.toInt y < SignedWord.toInt x then y else x

def greater (x y : ν) : ν := if SignedWord.toInt x < SignedWord.toInt y then y else x

/-- The least count that differs from the initial value, or the initial value if there is none. -/
def minimum (t : Tally κ ν) : ν :=
  match t.counts.values with
  | [] => t.initial
  | x :: rest => rest.foldl lesser x

/-- The greatest count that differs from the initial value, or the initial value if there is none. -/
def maximum (t : Tally κ ν) : ν :=
  match t.counts.values with
  | [] => t.initial
  | x :: rest => rest.foldl greater x

/-! ### Computing, removing, comparing and showing -/

/-- The count of a key; if it is the initial value, a function computes the count. -/
def computeIfAbsent (t : Tally κ ν) (key : κ) (f : κ → Reply ν) : Call (Tally κ ν) κ ν :=
  (t.counts.computeIfAbsent key f).within Tally.mk

/-- Computes a new count for a key whose count differs from the initial value. -/
def computeIfPresent (t : Tally κ ν) (key : κ) (f : κ → ν → Reply ν) :
    Call (Tally κ ν) (κ × ν) ν :=
  (t.counts.computeIfPresent key f).within Tally.mk

/-- Computes a new count from the current one. -/
def compute (t : Tally κ ν) (key : κ) (f : κ → ν → Reply ν) : Call (Tally κ ν) (κ × ν) ν :=
  (t.counts.compute key f).within Tally.mk

/-- Sets the counts that a predicate selects back to the initial value; says whether there was one. -/
def eraseWhere (t : Tally κ ν) (selects : κ → ν → Reply Bool) : Call (Tally κ ν) (κ × ν) Bool :=
  (t.counts.eraseWhere selects).within Tally.mk

/-- Shows every count that differs from the initial value to a function. -/
def forEach (t : Tally κ ν) (f : κ → ν → Reply Unit) : Call (Tally κ ν) (κ × ν) Unit :=
  (t.counts.forEach f).within Tally.mk

/-- Sets all counts back to the initial value. -/
def clear (t : Tally κ ν) : Tally κ ν := ⟨t.counts.clear⟩

/-- Moves the counts to the least table that holds them. -/
def compact (t : Tally κ ν) : Change (Tally κ ν) Unit := t.counts.compact.within Tally.mk

/-- The tallies have the same initial value and the same counts. -/
def beq (t other : Tally κ ν) : Bool := t.initial = other.initial && t.counts == other.counts

instance : BEq (Tally κ ν) := ⟨beq⟩

def hashCode [Digest] [ContentHash κ] [ContentHash ν] (t : Tally κ ν) : UInt64 := t.counts.hashCode

def toText (t : Tally κ ν) : String := t.counts.toText

def detailedText (t : Tally κ ν) : String :=
  "CounterMap \x7b initial_value: " ++ wordText t.initial ++ ", counts: " ++ t.counts.detailedText
    ++ " \x7d"

end Tally

end LinearProbing
