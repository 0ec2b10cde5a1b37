import LinearProbing.Disposal
import LinearProbing.Sizing
import LinearProbing.Text
import LinearProbing.Word

/-!
# LinearProbing.AssociativeCache

**Set-associative caches.** The slots are divided into sets of equal size, and a key lives in the set
that the low bits of its spread hash name. Within a set the newest entry comes first; when a full set
gains an entry, the oldest one has to go, however often it was read. Every value that is displaced is
handed to the callback that disposes of it; a value that is removed is given back instead.
-/

namespace LinearProbing

/-- A slot of a cache. -/
structure CacheSlot (κ ν : Type) where
  /-- The key; in a vacant slot it is left from earlier. -/
  key : κ
  /-- The value, `none` in a vacant slot. -/
  held : Option ν

/-- A cache of words to values. -/
structure AssociativeCache (κ ν : Type) where
  slots : Array (CacheSlot κ ν)
  numSets : Nat
  setSize : Nat
  len : Nat
  hits : Nat
  misses : Nat
  puts : Nat

namespace AssociativeCache

variable {κ ν : Type} [SignedWord κ]

/-! ### Construction -/

/-- A dimension rounded up to a power of two. -/
def roundedDimension (requested : Nat) : Except TableError Nat :=
  if requested = 0 then .error .zeroCapacity
  else
    let rounded := leastPowerOfTwo requested
    if rounded < sizeLimit then .ok rounded else .error (.capacityOverflow requested)

/-- A cache without entries. Both dimensions are rounded up to powers of two; their product is
bounded like the capacity of a table, and is reported, as far as it can be written, if it is not. -/
def ofDimensions (sets ways : Nat) : Except TableError (AssociativeCache κ ν) := do
  let numSets ← roundedDimension sets
  let setSize ← roundedDimension ways
  if numSets * setSize ≤ maxCapacity then
    return { slots := Array.replicate (numSets * setSize) ⟨SignedWord.zero, none⟩, numSets, setSize,
             len := 0, hits := 0, misses := 0, puts := 0 }
  else
    throw (.capacityOverflow (min (numSets * setSize) (sizeLimit - 1)))

omit [SignedWord κ] in
def capacity (c : AssociativeCache κ ν) : Nat := c.slots.size

/-! ### Slots -/

def slotAt (c : AssociativeCache κ ν) (index : Nat) : CacheSlot κ ν :=
  c.slots.getD index ⟨SignedWord.zero, none⟩

def valueAt? (c : AssociativeCache κ ν) (index : Nat) : Option ν := (c.slotAt index).held

omit [SignedWord κ] in
def setSlot (c : AssociativeCache κ ν) (index : Nat) (slot : CacheSlot κ ν) :
    AssociativeCache κ ν :=
  { c with slots := c.slots.setIfInBounds index slot }

/-- Takes the value out of a slot; the key stays behind. -/
def vacate (c : AssociativeCache κ ν) (index : Nat) : AssociativeCache κ ν :=
  c.setSlot index { c.slotAt index with held := none }

def move (c : AssociativeCache κ ν) (source target : Nat) : AssociativeCache κ ν :=
  (c.setSlot target (c.slotAt source)).vacate source

/-- The first slot of the set of a key. -/
def setStart (c : AssociativeCache κ ν) (key : κ) : Nat :=
  homeSlot (SignedWord.spread key).toNat c.numSets * c.setSize

/-- The slot of a key among so many slots, which are occupied up to the first vacant one. -/
def positionFrom? (c : AssociativeCache κ ν) (key : κ) : (slots : Nat) → (index : Nat) → Option Nat
  | 0, _ => none
  | slots + 1, index =>
    let slot := c.slotAt index
    -- the values of a set stand without gaps, so the key is not behind a vacant slot
    if slot.held.isNone then none
    else if slot.key = key then some index
    else positionFrom? c key slots (index + 1)

def position? (c : AssociativeCache κ ν) (key : κ) : Option Nat :=
  c.positionFrom? key c.setSize (c.setStart key)

/-- Moves so many slots after `start` back by one, the last one first. -/
def moveBack (start : Nat) : (count : Nat) → AssociativeCache κ ν → AssociativeCache κ ν
  | 0, c => c
  | count + 1, c => moveBack start count (c.move (start + count) (start + count + 1))

/-- Moves entries forward by one into a vacated slot, up to the first vacant slot or so many. -/
def moveForward : (count : Nat) → (index : Nat) → AssociativeCache κ ν → AssociativeCache κ ν
  | 0, _, c => c
  | count + 1, index, c =>
    if (c.valueAt? (index + 1)).isNone then c
    else moveForward count (index + 1) (c.move (index + 1) index)

/-- Puts a new entry at the front of its set. If the set was full, the oldest value is displaced. -/
def insertFront (c : AssociativeCache κ ν) (start : Nat) (key : κ) (value : ν) :
    Disposal (AssociativeCache κ ν) ν :=
  let last := start + c.setSize - 1
  -- the last slot of a set is occupied only if all are, and then it holds the oldest value
  let oldest := c.valueAt? last
  let moved := moveBack start (c.setSize - 1) (c.vacate last)
  let filled := moved.setSlot start ⟨key, some value⟩
  match oldest with
  | some displaced =>
    { state := filled, disposed := [displaced], events := [.evicted (start / c.setSize)] }
  | none => { state := { filled with len := c.len + 1 } }

/-! ### Reading -/

omit [SignedWord κ] in
/-- The entries, in slot order. -/
def entries (c : AssociativeCache κ ν) : List (κ × ν) :=
  c.slots.toList.filterMap fun s => s.held.map (s.key, ·)

omit [SignedWord κ] in
def isEmpty (c : AssociativeCache κ ν) : Bool := c.len == 0

/-- The value under a key; the read is counted. -/
def get (c : AssociativeCache κ ν) (key : κ) : Option ν × AssociativeCache κ ν :=
  match c.position? key with
  | some index => (c.valueAt? index, { c with hits := c.hits + 1 })
  | none => (none, { c with misses := c.misses + 1 })

/-- The key is present; this is not counted as a read. -/
def contains (c : AssociativeCache κ ν) (key : κ) : Bool := (c.position? key).isSome

omit [SignedWord κ] in
def containsValue [BEq ν] (c : AssociativeCache κ ν) (value : ν) : Bool :=
  c.entries.any (·.2 == value)

omit [SignedWord κ] in
/-- Shows every entry to a function, in slot order. -/
def forEach (c : AssociativeCache κ ν) (f : κ → ν → Reply Unit) :
    Call (AssociativeCache κ ν) (κ × ν) Unit :=
  .forEach (fun e => f e.1 e.2) c c.entries

omit [SignedWord κ] in
/-- Sets the counters of reads and stores to zero. -/
def resetCounters (c : AssociativeCache κ ν) : AssociativeCache κ ν :=
  { c with hits := 0, misses := 0, puts := 0 }

/-! ### Storing and removing -/

/-- Stores a value under a key. A present key keeps its place, and its former value is displaced. -/
def insert (c : AssociativeCache κ ν) (key : κ) (value : ν) : Disposal (AssociativeCache κ ν) ν :=
  let c := { c with puts := c.puts + 1 }
  match c.position? key with
  | some index =>
    { state := c.setSlot index { c.slotAt index with held := some value }
      disposed := (c.valueAt? index).toList }
  | none => c.insertFront (c.setStart key) key value

/-- Stores the entries of a list, one after the other. -/
def extend (c : AssociativeCache κ ν) : List (κ × ν) → Disposal (AssociativeCache κ ν) ν
  | [] => { state := c }
  | e :: rest =>
    let first := c.insert e.1 e.2
    let others := first.state.extend rest
    { state := others.state, disposed := first.disposed ++ others.disposed
      events := first.events ++ others.events }

/-- The value of a key; if the key is absent, a function computes the value and it is stored. -/
def computeIfAbsent (c : AssociativeCache κ ν) (key : κ) (f : κ → Reply (Option ν)) :
    DisposingCall (AssociativeCache κ ν) κ ν (Option ν) :=
  match c.position? key with
  | some index => { toCall := .done { c with hits := c.hits + 1 } (c.valueAt? index) }
  | none =>
    let c := { c with misses := c.misses + 1 }
    match f key with
    | .panics => { toCall := .after key (.fail c .panicked) }
    -- nothing is stored, and this is still a miss
    | .answers none => { toCall := .after key (.done c none) }
    | .answers (some value) =>
      let start := c.setStart key
      let stored := { c with puts := c.puts + 1 }.insertFront start key value
      let result := stored.state.valueAt? start
      { result := .ok result, state := stored.state, events := stored.events, calls := [key]
        disposed := stored.disposed }

/-- Removes a key and gives its value back. -/
def erase (c : AssociativeCache κ ν) (key : κ) : Option ν × AssociativeCache κ ν :=
  match c.position? key with
  | none => (none, c)
  | some index =>
    -- what was stored before the removed value moves up, so that no gap is left
    let behind := c.setStart key + c.setSize - 1 - index
    let closed := moveForward behind index (c.vacate index)
    (c.valueAt? index, { closed with len := c.len - 1 })

omit [SignedWord κ] in
/-- Removes all entries; their values are displaced in slot order. -/
def clear (c : AssociativeCache κ ν) : Disposal (AssociativeCache κ ν) ν where
  state := { c with slots := c.slots.map fun s => { s with held := none }, len := 0 }
  disposed := c.entries.map Prod.snd
  events := [.cacheCleared c.len]

/-! ### Showing -/

def toText [Render ν] (c : AssociativeCache κ ν) : String := plainMap c.entries

omit [SignedWord κ] in
/-- The detailed text of the cache: its dimensions and counters. -/
def detailedText (c : AssociativeCache κ ν) : String :=
  let field (name : String) (n : Nat) : String := name ++ ": " ++ Nat.repr n
  "SetAssociativeCache \x7b "
    ++ String.intercalate ", "
      [field "num_sets" c.numSets, field "set_size" c.setSize, field "len" c.len,
        field "hits" c.hits, field "misses" c.misses, field "puts" c.puts]
    ++ " \x7d"

end AssociativeCache

end LinearProbing
