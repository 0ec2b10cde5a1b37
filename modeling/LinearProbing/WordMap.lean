import LinearProbing.Cursor
import LinearProbing.Hash.Content
import LinearProbing.Table
import LinearProbing.Text

/-!
# LinearProbing.WordMap

**Maps from words to words.** Keys and values lie inline in the slots. One value of the caller's choice
is the *missing value*: a slot that holds it is vacant, reading an absent key gives it, and storing it
is refused. Every word is a key, the missing value included.

A function of the caller that computes the missing value removes the entry, or inserts none.
-/

namespace LinearProbing

/-- Slots that hold a key and a value, and are vacant when the value is the missing one. The key stays
behind when its entry goes. -/
def inlineLayout {κ ν : Type} [SignedWord κ] [SignedWord ν] (missing : ν) :
    EntryLayout (κ × ν) κ ν where
  empty := (SignedWord.zero, missing)
  entryIn? s := if s.2 = missing then none else some s
  hash s := SignedWord.spread s.1
  occupy _ key value := (key, value)
  leave s := (s.1, missing)

structure WordMap (κ ν : Type) where
  /-- The value that is read for absent keys and cannot be stored. -/
  missing : ν
  table : Table (κ × ν)

namespace WordMap

variable {κ ν : Type} [SignedWord κ] [SignedWord ν]

abbrev layout (m : WordMap κ ν) : EntryLayout (κ × ν) κ ν := inlineLayout m.missing

/-! ### Construction -/

/-- A map without entries. -/
def ofSizing (sizing : Sizing) (mode : IterationMode) (missing : ν) : WordMap κ ν :=
  { missing, table := .ofSizing (inlineLayout missing) sizing mode }

/-- A map without entries, of the standard size. -/
def empty (missing : ν) : WordMap κ ν := ofSizing .standard .cached missing

/-- A map without entries, built as a configuration asks. -/
def ofConfig (config : TableConfig) (missing : ν) : Except TableError (WordMap κ ν) :=
  (Sizing.ofConfig config).map (ofSizing · config.mode missing)

def ofCapacity (capacity : Nat) (loadFactor : Single) (missing : ν) :
    Except TableError (WordMap κ ν) :=
  ofConfig { capacity, loadFactor } missing

/-! ### Reading -/

def len (m : WordMap κ ν) : Nat := m.table.len

def capacity (m : WordMap κ ν) : Nat := m.table.capacity

/-- The entries, in slot order. -/
def entries (m : WordMap κ ν) : List (κ × ν) := m.table.entries m.layout

def keys (m : WordMap κ ν) : List κ := m.entries.map Prod.fst

def values (m : WordMap κ ν) : List ν := m.entries.map Prod.snd

/-- Where the search for a key ends. -/
def locate (m : WordMap κ ν) (key : κ) : Probe :=
  m.table.locate m.layout (SignedWord.spread key) key

def valueAt (m : WordMap κ ν) (index : Nat) : ν := (m.layout.layout.slotAt m.table.slots index).2

def find? (m : WordMap κ ν) (key : κ) : Option Nat :=
  m.table.find? m.layout (SignedWord.spread key) key

/-- The value under a key, if there is one. -/
def get? (m : WordMap κ ν) (key : κ) : Option ν := (m.find? key).map m.valueAt

/-- The value under a key, or another one if the key is absent. -/
def getD (m : WordMap κ ν) (key : κ) (default : ν) : ν := (m.get? key).getD default

/-- The value under a key, or the missing value if the key is absent. -/
def get (m : WordMap κ ν) (key : κ) : ν := m.getD key m.missing

def contains (m : WordMap κ ν) (key : κ) : Bool := (m.get? key).isSome

/-- Some key has the value. None has the missing value. -/
def containsValue (m : WordMap κ ν) (value : ν) : Bool :=
  value ≠ m.missing && m.values.contains value

/-! ### Slots -/

@[inline]
def insertAt (m : WordMap κ ν) (index : Nat) (key : κ) (value : ν) : Change (WordMap κ ν) Nat :=
  (m.table.insertAt m.layout index (m.layout.occupy (SignedWord.spread key) key value)).within
    fun table => { m with table }

def eraseAt (m : WordMap κ ν) (index : Nat) : WordMap κ ν :=
  { m with table := m.table.eraseAt m.layout index }

def setValueAt (m : WordMap κ ν) (index : Nat) (value : ν) : WordMap κ ν :=
  { m with table := m.table.setAt index ((m.layout.layout.slotAt m.table.slots index).1, value) }

/-- Gives the entry in a slot a computed value; the missing value removes it. -/
def updateAt (m : WordMap κ ν) (index : Nat) (value : ν) : WordMap κ ν :=
  if value = m.missing then m.eraseAt index else m.setValueAt index value

/-- Puts a computed value into a vacant slot, unless it is the missing value. -/
def insertComputed (m : WordMap κ ν) (index : Nat) (key : κ) (value : ν) :
    Change (WordMap κ ν) ν :=
  if value = m.missing then .done m value
  else (m.insertAt index key value).map fun _ => value

/-! ### Storing -/

/-- The refusal to store the missing value. -/
def refusal (m : WordMap κ ν) : TableError := .missingValue (wordText m.missing)

/-- Goes on only with a value that can be stored. -/
@[inline]
def checked {α : Type} (m : WordMap κ ν) (value : ν) (next : Change (WordMap κ ν) α) :
    Change (WordMap κ ν) α :=
  -- refused before the search, so also for a key that is absent
  if value = m.missing then .fail m (.refused m.refusal) else next

/-- Stores a value that is not the missing one; the result is the former value. -/
def store (m : WordMap κ ν) (key : κ) (value : ν) : Change (WordMap κ ν) ν :=
  match m.locate key with
  | .found index =>
    let old := m.valueAt index
    .done (m.setValueAt index value) old
  | .vacant index => (m.insertAt index key value).map fun _ => m.missing
  | .endless => .fail m .endlessSearch

/-- Stores a value under a key; the result is the former value. -/
def insert (m : WordMap κ ν) (key : κ) (value : ν) : Change (WordMap κ ν) ν :=
  m.checked value (m.store key value)

/-- Stores a value under an absent key; the result is the value that was there. -/
def insertIfAbsent (m : WordMap κ ν) (key : κ) (value : ν) : Change (WordMap κ ν) ν :=
  m.checked value <|
    match m.locate key with
    | .found index => .done m (m.valueAt index)
    | .vacant index => (m.insertAt index key value).map fun _ => m.missing
    | .endless => .fail m .endlessSearch

/-- Overwrites the value of a present key; the result is the former value. -/
def replace (m : WordMap κ ν) (key : κ) (value : ν) : Change (WordMap κ ν) ν :=
  m.checked value <|
    match m.locate key with
    | .found index =>
      let old := m.valueAt index
      .done (m.setValueAt index value) old
    | .vacant _ => .done m m.missing
    | .endless => .fail m .endlessSearch

/-- Overwrites the value of a key if it is `old`; says whether it was. -/
def replaceIf (m : WordMap κ ν) (key : κ) (old new : ν) : Change (WordMap κ ν) Bool :=
  m.checked new <|
    match m.locate key with
    | .found index =>
      if m.valueAt index = old then .done (m.setValueAt index new) true else .done m false
    | .vacant _ => .done m false
    | .endless => .fail m .endlessSearch

/-- Copies the entries of another map. If one of them has this map's missing value, nothing is
copied. -/
def insertAll (m other : WordMap κ ν) : Change (WordMap κ ν) Unit :=
  -- a map never holds its own missing value, so maps with the same one need no check
  if other.missing ≠ m.missing ∧ other.values.contains m.missing then .fail m (.refused m.refusal)
  else Change.forEach (fun m e => m.store e.1 e.2) other.entries m

/-- A map with the entries of a list, minus one as its missing value. If one of the entries has that
value, there is no map. -/
def ofEntries (entries : List (κ × ν)) : Change (WordMap κ ν) Unit :=
  let m : WordMap κ ν := empty SignedWord.minusOne
  if (entries.map Prod.snd).contains m.missing then .fail m (.refused m.refusal)
  else Change.forEach (fun m e => m.store e.1 e.2) entries m

/-! ### Removing -/

/-- Removes a key; the result is its value, if it had one. -/
def erase? (m : WordMap κ ν) (key : κ) : Option ν × WordMap κ ν :=
  match m.find? key with
  | some index => (some (m.valueAt index), m.eraseAt index)
  | none => (none, m)

/-- Removes a key; the result is its value, or the missing value. -/
def erase (m : WordMap κ ν) (key : κ) : ν × WordMap κ ν :=
  let missing := m.missing
  let (old, m) := m.erase? key
  (old.getD missing, m)

def eraseIfValue (m : WordMap κ ν) (key : κ) (value : ν) : Bool × WordMap κ ν :=
  match m.find? key with
  | some index => if m.valueAt index = value then (true, m.eraseAt index) else (false, m)
  | none => (false, m)

/-- Removes the entries that a predicate selects; says whether any was removed. -/
def eraseWhere (m : WordMap κ ν) (selects : κ → ν → Reply Bool) :
    Call (WordMap κ ν) (κ × ν) Bool :=
  (m.table.eraseWhere m.layout selects).within fun table => { m with table }

/-- Removes the entries that a predicate does not keep. -/
def retain (m : WordMap κ ν) (keeps : κ → ν → Reply Bool) : Call (WordMap κ ν) (κ × ν) Unit :=
  (m.eraseWhere fun key value => (keeps key value).map not).map fun _ => ()

/-- Shows every entry to a function. -/
def forEach (m : WordMap κ ν) (f : κ → ν → Reply Unit) : Call (WordMap κ ν) (κ × ν) Unit :=
  .forEach (fun e => f e.1 e.2) m m.entries

/-- Removes all entries, and wipes the slots. -/
def clear (m : WordMap κ ν) : WordMap κ ν :=
  { m with table := m.table.clearWith fun _ => m.layout.empty }

/-- Moves the entries to the least table that holds them. -/
def compact (m : WordMap κ ν) : Change (WordMap κ ν) Unit :=
  (m.table.compact m.layout).within fun table => { m with table }

/-! ### Computing -/

/-- The value of a key; if the key is absent, a function computes the value and it is stored. -/
def computeIfAbsent (m : WordMap κ ν) (key : κ) (f : κ → Reply ν) : Call (WordMap κ ν) κ ν :=
  match m.locate key with
  | .found index => .done m (m.valueAt index)
  -- the slot was found before the call, which cannot change the map
  | .vacant index => .run key (f key) m fun value => m.insertComputed index key value
  | .endless => .fail m .endlessSearch

/-- Computes a new value for a present key. -/
def computeIfPresent (m : WordMap κ ν) (key : κ) (f : κ → ν → Reply ν) :
    Call (WordMap κ ν) (κ × ν) ν :=
  match m.locate key with
  | .found index =>
    let old := m.valueAt index
    .run (key, old) (f key old) m fun value => .done (m.updateAt index value) value
  | .vacant _ => .done m m.missing
  | .endless => .fail m .endlessSearch

/-- Computes a new value from the current one, which is the missing value for an absent key. -/
def compute (m : WordMap κ ν) (key : κ) (f : κ → ν → Reply ν) : Call (WordMap κ ν) (κ × ν) ν :=
  match m.locate key with
  | .found index =>
    -- the entry stays in its slot during the call, so a panic changes nothing
    let old := m.valueAt index
    .run (key, old) (f key old) m fun value => .done (m.updateAt index value) value
  | .vacant index =>
    .run (key, m.missing) (f key m.missing) m fun value => m.insertComputed index key value
  | .endless => .fail m .endlessSearch

/-- Stores a value under an absent key, or combines the current value with it. -/
def merge (m : WordMap κ ν) (key : κ) (value : ν) (f : ν → ν → Reply ν) :
    Call (WordMap κ ν) (ν × ν) ν :=
  if value = m.missing then .fail m (.refused m.refusal)
  else
    match m.locate key with
    | .found index =>
      let old := m.valueAt index
      .run (old, value) (f old value) m fun combined => .done (m.updateAt index combined) combined
    | .vacant index => .quiet ((m.insertAt index key value).map fun _ => value)
    | .endless => .fail m .endlessSearch

/-! ### Comparing and showing -/

/-- Every entry of a list is an entry of the map. -/
def includes (m : WordMap κ ν) (entries : List (κ × ν)) : Bool :=
  entries.all fun e => m.get? e.1 == some e.2

def beq (m other : WordMap κ ν) : Bool := m.len == other.len && other.includes m.entries

instance : BEq (WordMap κ ν) := ⟨beq⟩

/-- The map holds the entries of a list of distinct keys, and no others. -/
def beqEntries (m : WordMap κ ν) (entries : List (κ × ν)) : Bool :=
  m.len == entries.length && m.includes entries

def hashCode [Digest] [ContentHash κ] [ContentHash ν] (m : WordMap κ ν) : UInt64 :=
  mapContentHash m.entries

def toText (m : WordMap κ ν) : String := plainMap m.entries

def detailedText (m : WordMap κ ν) : String := detailedMap m.entries

/-! ### Cursors -/

structure Cursor (κ ν : Type) where
  missing : ν
  inner : Table.Cursor (κ × ν)

def openCursor (m : WordMap κ ν) : Cursor κ ν :=
  { missing := m.missing, inner := m.table.openCursor m.layout }

namespace Cursor

def map (c : Cursor κ ν) : WordMap κ ν := { missing := c.missing, table := c.inner.table }

def next (c : Cursor κ ν) : Option (κ × ν) × Cursor κ ν :=
  let (e, inner) := c.inner.next (inlineLayout c.missing)
  (e, { c with inner })

def remove (c : Cursor κ ν) : Option (κ × ν) × Cursor κ ν :=
  let (e, inner) := c.inner.remove (inlineLayout c.missing)
  (e, { c with inner })

/-- Overwrites the value of the entry produced last; says whether there is one. -/
def setValue (c : Cursor κ ν) (value : ν) : Except TableError Bool × Cursor κ ν :=
  if value = c.missing then (.error c.map.refusal, c)
  else
    let (there, inner) := c.inner.writeCurrent (inlineLayout (κ := κ) c.missing) fun s => (s.1, value)
    (.ok there, { c with inner })

instance : CursorInterface (Cursor κ ν) (κ × ν) ν where
  next := next
  remove := remove
  write value c := c.setValue value

end Cursor

end WordMap

end LinearProbing
