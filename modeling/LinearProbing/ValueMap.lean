import LinearProbing.Cursor
import LinearProbing.Hash.Key
import LinearProbing.Table
import LinearProbing.Text

/-!
# LinearProbing.ValueMap

**Maps to values that may be null.** A key is absent, or present with a null, or present with a value.
A null is an entry: it counts and its key is present; but it is read as no value, and operations that
fill absent keys fill it too. A map says by its `NullPolicy` whether nulls can be stored at all.

How a slot holds an entry (`EntrySlot`) and how keys are hashed (`KeyHash`) are parameters. Both kinds of
map built on this (`WordKeyMap`, `KeyMap`) share all that follows.

While a function of the caller computes on a present entry, the entry is out of its slot. If the function
panics, the entry is gone: its removal is finished as if there had been no new value.
-/

namespace LinearProbing

/-- Whether a map holds nulls. -/
inductive NullPolicy where
  | nonNull
  | nullable
  deriving DecidableEq

/-- Slots that hold a key and a value that may be null. -/
class EntrySlot (σ : Type) (κ ν : outParam Type) where
  layout : EntryLayout σ κ (Option ν)

/-- A map from keys to values that may be null. -/
structure ValueMap (σ η κ ν : Type) where
  hashing : η
  policy : NullPolicy
  table : Table σ

namespace ValueMap

variable {σ η κ ν : Type}

def len (m : ValueMap σ η κ ν) : Nat := m.table.len

def capacity (m : ValueMap σ η κ ν) : Nat := m.table.capacity

@[inline]
def withTable (m : ValueMap σ η κ ν) (table : Table σ) : ValueMap σ η κ ν := { m with table }

/-- A copy of the map. The state of a cursor is not copied. -/
def copy (m : ValueMap σ η κ ν) : ValueMap σ η κ ν := m.withTable m.table.forgetScan

variable [EntrySlot σ κ ν]

abbrev layout (_ : ValueMap σ η κ ν) : EntryLayout σ κ (Option ν) := EntrySlot.layout

/-! ### Construction -/

/-- A map without entries. -/
def ofSizing (sizing : Sizing) (mode : IterationMode) (policy : NullPolicy) (hashing : η) :
    ValueMap σ η κ ν :=
  { hashing, policy, table := .ofSizing EntrySlot.layout sizing mode }

/-- A map without entries, of the standard size. -/
def empty (policy : NullPolicy) (hashing : η) : ValueMap σ η κ ν :=
  ofSizing .standard .cached policy hashing

/-- A map without entries, built as a configuration asks. -/
def ofConfig (config : TableConfig) (policy : NullPolicy) (hashing : η) :
    Except TableError (ValueMap σ η κ ν) :=
  (Sizing.ofConfig config).map (ofSizing · config.mode policy hashing)

def ofCapacity (capacity : Nat) (loadFactor : Single) (policy : NullPolicy) (hashing : η) :
    Except TableError (ValueMap σ η κ ν) :=
  ofConfig { capacity, loadFactor } policy hashing

/-! ### Reading -/

/-- The entries, in slot order. -/
def entries (m : ValueMap σ η κ ν) : List (κ × Option ν) := m.table.entries m.layout

def keys (m : ValueMap σ η κ ν) : List κ := m.entries.map Prod.fst

def values (m : ValueMap σ η κ ν) : List (Option ν) := m.entries.map Prod.snd

/-- The entries that are not null, in slot order. -/
def valueEntries (m : ValueMap σ η κ ν) : List (κ × ν) :=
  m.entries.filterMap fun e => e.2.map (e.1, ·)

/-- The value in a slot, if it holds one that is not null. -/
def valueAt? (m : ValueMap σ η κ ν) (index : Nat) : Option ν :=
  (m.table.entryAt? m.layout index).bind Prod.snd

def containsValue [BEq ν] (m : ValueMap σ η κ ν) (value : ν) : Bool :=
  m.values.any (· == some value)

/-! ### Slots -/

/-- Replaces what is stored in a slot; its key stays. -/
def setStoredAt (m : ValueMap σ η κ ν) (index : Nat) (stored : Option ν) : ValueMap σ η κ ν :=
  match m.table.entryAt? m.layout index with
  | none => m
  | some (key, _) =>
    let hash := m.layout.hash (m.layout.layout.slotAt m.table.slots index)
    m.withTable (m.table.setAt index (m.layout.occupy hash key stored))

theorem scan_setStoredAt (m : ValueMap σ η κ ν) (index : Nat) (stored : Option ν) :
    (m.setStoredAt index stored).table.scan = m.table.scan := by
  unfold setStoredAt
  split <;> rfl

/-- Puts a new entry into a vacant slot; the result is the slot where the entry is afterwards. -/
@[inline]
def insertAt (m : ValueMap σ η κ ν) (index : Nat) (hash : UInt64) (key : κ) (stored : Option ν) :
    Change (ValueMap σ η κ ν) Nat :=
  (m.table.insertAt m.layout index (m.layout.occupy hash key stored)).within m.withTable

/-- Puts a new value into a vacant slot; the result is the value that the map then holds there. -/
def insertValueAt (m : ValueMap σ η κ ν) (index : Nat) (hash : UInt64) (key : κ) (value : ν) :
    Change (ValueMap σ η κ ν) (Option ν) :=
  (m.insertAt index hash key (some value)).andThen fun m index => .done m (m.valueAt? index)

def eraseAt (m : ValueMap σ η κ ν) (index : Nat) : ValueMap σ η κ ν :=
  m.withTable (m.table.eraseAt m.layout index)

/-- Takes the entry in a slot out, for the time that a function of the caller computes on it. -/
def takeAt (m : ValueMap σ η κ ν) (index : Nat) : ValueMap σ η κ ν :=
  m.withTable (m.table.takeAt m.layout index)

/-- Finishes the removal of an entry that was taken out. -/
def closeTaken (m : ValueMap σ η κ ν) (index : Nat) : ValueMap σ η κ ν :=
  m.withTable (m.table.closeTaken m.layout index)

/-- Fills a slot whose entry was taken out, or finishes the removal if there is no new value. -/
def settle (m : ValueMap σ η κ ν) (index : Nat) (hash : UInt64) (key : κ) (value : Option ν) :
    Change (ValueMap σ η κ ν) (Option ν) :=
  match value with
  | none => .done (m.closeTaken index) none
  | some v =>
    let m := m.withTable (m.table.setAt index (m.layout.occupy hash key (some v)))
    .done m (m.valueAt? index)

/-- The refusal to store a null. -/
def refuseNull {α : Type} (m : ValueMap σ η κ ν) : Change (ValueMap σ η κ ν) α :=
  .fail m (.refused .nullValue)

variable [KeyHash η κ] [BEq κ]

/-! ### Searching -/

def hashOf (m : ValueMap σ η κ ν) (key : κ) : UInt64 := KeyHash.hash m.hashing key

/-- Where the search for a key ends. -/
def locate (m : ValueMap σ η κ ν) (key : κ) : Probe := m.table.locate m.layout (m.hashOf key) key

def find? (m : ValueMap σ η κ ν) (key : κ) : Option Nat :=
  m.table.find? m.layout (m.hashOf key) key

/-- The entry under a key, with the key as it is stored. -/
def lookup? (m : ValueMap σ η κ ν) (key : κ) : Option (κ × Option ν) :=
  m.table.lookup? m.layout (m.hashOf key) key

/-- The value under a key, if there is one that is not null. -/
def get? (m : ValueMap σ η κ ν) (key : κ) : Option ν := (m.find? key).bind m.valueAt?

/-- The key is present, with a value or a null. -/
def contains (m : ValueMap σ η κ ν) (key : κ) : Bool := (m.find? key).isSome

/-! ### Storing -/

/-- Stores a value or a null under a key; the result is the former value. -/
def store (m : ValueMap σ η κ ν) (key : κ) (stored : Option ν) :
    Change (ValueMap σ η κ ν) (Option ν) :=
  match m.locate key with
  | .found index =>
    let old := m.valueAt? index
    .done (m.setStoredAt index stored) old
  | .vacant index => (m.insertAt index (m.hashOf key) key stored).map fun _ => none
  | .endless => .fail m .endlessSearch

/-- Stores a value under a key; the result is the former value. -/
def insert (m : ValueMap σ η κ ν) (key : κ) (value : ν) : Change (ValueMap σ η κ ν) (Option ν) :=
  m.store key (some value)

/-- Stores a null under a key; the result is the former value. -/
def insertNull (m : ValueMap σ η κ ν) (key : κ) : Change (ValueMap σ η κ ν) (Option ν) :=
  match m.policy with
  | .nonNull => m.refuseNull
  | .nullable => m.store key none

/-- Stores a value under a key that is absent or null; the result is the value that was there. -/
def insertIfAbsent (m : ValueMap σ η κ ν) (key : κ) (value : ν) :
    Change (ValueMap σ η κ ν) (Option ν) :=
  match m.locate key with
  | .found index =>
    match m.valueAt? index with
    | some old => .done m (some old)
    | none => .done (m.setStoredAt index (some value)) none
  | .vacant index => (m.insertAt index (m.hashOf key) key (some value)).map fun _ => none
  | .endless => .fail m .endlessSearch

/-- Overwrites what is stored under a present key; the result is the former value. -/
def replace (m : ValueMap σ η κ ν) (key : κ) (value : ν) : Option ν × ValueMap σ η κ ν :=
  match m.find? key with
  | some index => (m.valueAt? index, m.setStoredAt index (some value))
  | none => (none, m)

/-- Overwrites the value of a key if it is `old`; says whether it was. -/
def replaceIf [BEq ν] (m : ValueMap σ η κ ν) (key : κ) (old new : ν) : Bool × ValueMap σ η κ ν :=
  match m.find? key with
  | some index =>
    if m.valueAt? index == some old then (true, m.setStoredAt index (some new)) else (false, m)
  | none => (false, m)

/-- Rewrites the value under a key, if there is one that is not null; the result is the new value. -/
def modify (m : ValueMap σ η κ ν) (key : κ) (f : ν → ν) : Option ν × ValueMap σ η κ ν :=
  match m.find? key with
  | some index =>
    match m.valueAt? index with
    | some old => (some (f old), m.setStoredAt index (some (f old)))
    | none => (none, m)
  | none => (none, m)

/-- Copies the entries of another map, nulls included. -/
def insertAll (m other : ValueMap σ η κ ν) : Change (ValueMap σ η κ ν) Unit :=
  -- both maps have one policy, so the nulls of the other map may be stored here
  Change.forEach (fun m e => m.store e.1 e.2) other.entries m

/-- Stores the entries of a list, one after the other. -/
def extend (m : ValueMap σ η κ ν) (entries : List (κ × ν)) : Change (ValueMap σ η κ ν) Unit :=
  Change.forEach (fun m e => m.insert e.1 e.2) entries m

/-- The map of a list of entries, with the default hashing. -/
def ofEntries [Inhabited η] (policy : NullPolicy) (entries : List (κ × ν)) :
    Change (ValueMap σ η κ ν) Unit :=
  (empty policy default).extend entries

/-! ### Removing -/

/-- Removes a key; the result is the entry, with the key as it was stored. -/
def eraseEntry (m : ValueMap σ η κ ν) (key : κ) : Option (κ × Option ν) × ValueMap σ η κ ν :=
  match m.find? key with
  | some index => (m.table.entryAt? m.layout index, m.eraseAt index)
  | none => (none, m)

/-- Removes a key; the result is its value. -/
def erase (m : ValueMap σ η κ ν) (key : κ) : Option ν × ValueMap σ η κ ν :=
  let (e, m) := m.eraseEntry key
  (e.bind Prod.snd, m)

def eraseIfValue [BEq ν] (m : ValueMap σ η κ ν) (key : κ) (value : ν) :
    Bool × ValueMap σ η κ ν :=
  match m.find? key with
  | some index => if m.valueAt? index == some value then (true, m.eraseAt index) else (false, m)
  | none => (false, m)

omit [KeyHash η κ] [BEq κ] in
/-- Removes the entries that a predicate selects; says whether any was removed. -/
def eraseWhere (m : ValueMap σ η κ ν) (selects : κ → Option ν → Reply Bool) :
    Call (ValueMap σ η κ ν) (κ × Option ν) Bool :=
  (m.table.eraseWhere m.layout selects).within m.withTable

omit [KeyHash η κ] [BEq κ] in
/-- Removes the entries that a predicate does not keep. -/
def retain (m : ValueMap σ η κ ν) (keeps : κ → Option ν → Reply Bool) :
    Call (ValueMap σ η κ ν) (κ × Option ν) Unit :=
  (m.eraseWhere fun key stored => (keeps key stored).map not).map fun _ => ()

omit [KeyHash η κ] [BEq κ] in
/-- Shows every entry to a function. -/
def forEach (m : ValueMap σ η κ ν) (f : κ → Option ν → Reply Unit) :
    Call (ValueMap σ η κ ν) (κ × Option ν) Unit :=
  .forEach (fun e => f e.1 e.2) m m.entries

omit [KeyHash η κ] [BEq κ] in
def clear (m : ValueMap σ η κ ν) : ValueMap σ η κ ν :=
  m.withTable (m.table.clearWith m.layout.leave)

omit [KeyHash η κ] [BEq κ] in
/-- Moves the entries to the least table that holds them. -/
def compact (m : ValueMap σ η κ ν) : Change (ValueMap σ η κ ν) Unit :=
  (m.table.compact m.layout).within m.withTable

/-! ### Computing -/

/-- The value of a key; if the key is absent or null, a function computes the value and it is
stored. -/
def computeIfAbsent (m : ValueMap σ η κ ν) (key : κ) (f : κ → Reply (Option ν)) :
    Call (ValueMap σ η κ ν) κ (Option ν) :=
  match m.locate key with
  | .found index =>
    match m.valueAt? index with
    | some old => .done m (some old)
    | none =>
      .run key (f key) m fun
        | none => .done m none
        | some value =>
          let m := m.setStoredAt index (some value)
          .done m (m.valueAt? index)
  | .vacant index =>
    .run key (f key) m fun
      | none => .done m none
      | some value => m.insertValueAt index (m.hashOf key) key value
  | .endless => .fail m .endlessSearch

/-- Computes a new value for a key that has one; the key stays as it is stored. -/
def computeIfPresent (m : ValueMap σ η κ ν) (key : κ) (f : κ → ν → Reply (Option ν)) :
    Call (ValueMap σ η κ ν) (κ × ν) (Option ν) :=
  match m.locate key with
  | .found index =>
    match m.table.entryAt? m.layout index with
    | none | some (_, none) => .done m none
    | some (stored, some old) =>
      -- the stored key stays, so its hash is read off the slot
      let hash := m.layout.hash (m.layout.layout.slotAt m.table.slots index)
      let taken := m.takeAt index
      .run (stored, old) (f stored old) (taken.closeTaken index) (taken.settle index hash stored)
  | .vacant _ => .done m none
  | .endless => .fail m .endlessSearch

/-- Computes a new value from the current one, if there is one. A present entry gets the key of the
call. -/
def compute (m : ValueMap σ η κ ν) (key : κ) (f : κ → Option ν → Reply (Option ν)) :
    Call (ValueMap σ η κ ν) (κ × Option ν) (Option ν) :=
  match m.locate key with
  | .found index =>
    let old := m.valueAt? index
    -- the entry is out of its slot during the call: if that panics, the removal is completed
    let taken := m.takeAt index
    .run (key, old) (f key old) (taken.closeTaken index) (taken.settle index (m.hashOf key) key)
  | .vacant index =>
    .run (key, none) (f key none) m fun
      | none => .done m none
      | some value => m.insertValueAt index (m.hashOf key) key value
  | .endless => .fail m .endlessSearch

/-- Stores a value under a key that is absent or null, or combines the current value with it. A
present entry gets the key of the call. -/
def merge (m : ValueMap σ η κ ν) (key : κ) (value : ν) (f : ν → ν → Reply (Option ν)) :
    Call (ValueMap σ η κ ν) (ν × ν) (Option ν) :=
  match m.locate key with
  | .found index =>
    -- taken out even where a null is replaced; what is put back has the key of the call
    let taken := m.takeAt index
    match m.valueAt? index with
    | some old =>
      .run (old, value) (f old value) (taken.closeTaken index)
        (taken.settle index (m.hashOf key) key)
    | none => .quiet (taken.settle index (m.hashOf key) key (some value))
  | .vacant index => .quiet (m.insertValueAt index (m.hashOf key) key value)
  | .endless => .fail m .endlessSearch

/-! ### Comparing and showing -/

/-- The maps hold the same entries, nulls included. -/
def beq [BEq ν] (m other : ValueMap σ η κ ν) : Bool :=
  m.len == other.len && m.entries.all fun e => (other.lookup? e.1).map Prod.snd == some e.2

instance [BEq ν] : BEq (ValueMap σ η κ ν) := ⟨beq⟩

/-- The map holds the entries of a list of distinct keys, and no others. -/
def beqEntries [BEq ν] (m : ValueMap σ η κ ν) (entries : List (κ × ν)) : Bool :=
  m.len == entries.length && entries.all fun e => m.get? e.1 == some e.2

omit [KeyHash η κ] [BEq κ] in
/-- The content hash of the map. Where nulls can be stored, values are hashed as optional ones. -/
def hashCode [Digest] [ContentHash κ] [ContentHash ν] (m : ValueMap σ η κ ν) : UInt64 :=
  match m.policy with
  | .nullable => mapContentHash m.entries
  | .nonNull => mapContentHash m.valueEntries

omit [KeyHash η κ] [BEq κ] in
def toText [Render κ] [Render ν] (m : ValueMap σ η κ ν) : String := plainMap m.entries

omit [KeyHash η κ] [BEq κ] in
def detailedText [Render κ] [Render ν] (m : ValueMap σ η κ ν) : String := detailedMap m.entries

/-! ### Cursors -/

omit [KeyHash η κ] [BEq κ]

structure Cursor (σ η κ ν : Type) where
  source : ValueMap σ η κ ν
  inner : Table.Cursor σ

def openCursor (m : ValueMap σ η κ ν) : Cursor σ η κ ν :=
  { source := m, inner := m.table.openCursor m.layout }

namespace Cursor

def map (c : Cursor σ η κ ν) : ValueMap σ η κ ν := c.source.withTable c.inner.table

def next (c : Cursor σ η κ ν) : Option (κ × Option ν) × Cursor σ η κ ν :=
  let (e, inner) := c.inner.next c.source.layout
  (e, { c with inner })

def remove (c : Cursor σ η κ ν) : Option (κ × Option ν) × Cursor σ η κ ν :=
  let (e, inner) := c.inner.remove c.source.layout
  (e, { c with inner })

/-- Overwrites the value of the entry produced last, unless there is none or it is null; says whether
it was overwritten. -/
def setValue (c : Cursor σ η κ ν) (value : ν) : Bool × Cursor σ η κ ν :=
  match c.inner.scan.current with
  | none => (false, c)
  | some index =>
    match c.map.valueAt? index with
    | none => (false, c)
    | some _ =>
      let table := (c.map.setStoredAt index (some value)).table
      (true, { c with inner := { c.inner with table } })

instance : CursorInterface (Cursor σ η κ ν) (κ × Option ν) ν where
  next := next
  remove := remove
  write value c :=
    let (done, c) := c.setValue value
    (.ok done, c)

end Cursor

end ValueMap

end LinearProbing
