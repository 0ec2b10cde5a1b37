import LinearProbing.Config
import LinearProbing.Outcome
import LinearProbing.Scan
import LinearProbing.Sizing

/-!
# LinearProbing.Table

**The probing table** under every growing container: an array of slots, the number of entries, the
sizing, and the scan of a cursor that keeps its state here.

A container says by an `EntryLayout` how its slots hold keys and values. The table is then searched
(`Table.locate`), gains an entry (`Table.insertAt`), loses one (`Table.eraseAt`), and moves to another
number of slots (`Table.rehash`). An entry can also be taken out while a function of the caller runs
(`Table.takeAt`); the gap is closed by `Table.closeTaken` or filled again by `Table.setAt`.
-/

namespace LinearProbing

/-- How a slot holds an entry. -/
structure EntryLayout (σ κ ν : Type) where
  empty : σ
  /-- The key and the value in a slot, `none` if it is vacant. -/
  entryIn? : σ → Option (κ × ν)
  hash : σ → UInt64
  /-- The slot that holds a key, with its hash, and a value. -/
  occupy : UInt64 → κ → ν → σ
  /-- What is left of a slot when its entry goes. -/
  leave : σ → σ

namespace EntryLayout

variable {σ κ ν : Type} (E : EntryLayout σ κ ν)

/-- The slots as an array to probe. -/
def layout : Layout σ where
  empty := E.empty
  vacant s := (E.entryIn? s).isNone
  hash s := (E.hash s).toNat
  leave := E.leave

/-- The slot holds the key: hashes are compared first. -/
def holds [BEq κ] (hash : UInt64) (key : κ) (slot : σ) : Bool :=
  match E.entryIn? slot with
  | some (k, _) => E.hash slot == hash && k == key
  | none => false

end EntryLayout

/-- A table of slots. -/
structure Table (σ : Type) where
  sizing : Sizing
  slots : Array σ
  len : Nat
  mode : IterationMode
  /-- The state of the cursor opened last, if cursors keep it here. -/
  scan : Scan

namespace Table

variable {σ κ ν : Type}

def capacity (t : Table σ) : Nat := t.sizing.capacity

/-- The table counts no entries. -/
def isEmpty (t : Table σ) : Bool := t.len == 0

/-- The same table without the state of a scan. -/
def forgetScan (t : Table σ) : Table σ := { t with scan := {} }

variable (E : EntryLayout σ κ ν)

/-- A table without entries. -/
def ofSizing (sizing : Sizing) (mode : IterationMode) : Table σ where
  sizing
  slots := Array.replicate sizing.capacity E.empty
  len := 0
  mode
  scan := {}

def entryAt? (t : Table σ) (index : Nat) : Option (κ × ν) :=
  E.entryIn? (E.layout.slotAt t.slots index)

/-- The entries, in slot order. -/
def entries (t : Table σ) : List (κ × ν) := t.slots.toList.filterMap E.entryIn?

/-! ### Searching -/

/-- Where the search for a key ends. -/
def locate [BEq κ] (t : Table σ) (hash : UInt64) (key : κ) : Probe :=
  E.layout.probe t.slots (E.holds hash key) (homeSlot hash.toNat t.slots.size)

/-- The slot of a key. There is none either where the search for it never ends; a call that asks for the slot
does not end then, and what it does says so (`Call.searching`). -/
def find? [BEq κ] (t : Table σ) (hash : UInt64) (key : κ) : Option Nat :=
  match t.locate E hash key with
  | .found index => some index
  | .vacant _ | .endless => none

/-- The entry under a key, with the key as it is stored. -/
def lookup? [BEq κ] (t : Table σ) (hash : UInt64) (key : κ) : Option (κ × ν) :=
  (t.find? E hash key).bind (t.entryAt? E)

/-! ### Changing -/

@[inline]
def setAt (t : Table σ) (index : Nat) (slot : σ) : Table σ :=
  { t with slots := t.slots.setIfInBounds index slot }

/-- Moves all entries to a table of another size. The second component is the new slot of the entry at
the index `tracked`. -/
def rehash (t : Table σ) (sizing : Sizing) (tracked : Nat) : Table σ × Nat :=
  let moved := E.layout.rehash t.slots sizing.capacity tracked
  ({ t with slots := moved.1, sizing }, moved.2)

/-- Puts a new entry into a vacant slot, and grows the table if there are now too many; the result is
the slot of the entry. Where the table cannot grow, the entry is in its slot all the same. -/
def insertAt (t : Table σ) (index : Nat) (slot : σ) : Change (Table σ) Nat :=
  let len := t.len + 1
  let t := { t.setAt index slot with len }
  -- the entry is counted before there is room for it, so a table that cannot grow keeps one too many
  if t.sizing.exceededBy t.len then
    match t.sizing.grownFor? t.len with
    | none => .fail t .capacityOverflow
    | some sizing =>
      let (grown, index) := t.rehash E sizing index
      { result := .ok index, state := grown
        events := [.rehashed .grow t.capacity grown.capacity t.len] }
  else .done t index

/-- Takes the entry out of a slot and leaves a gap in its run. The number of entries still counts
it. -/
def takeAt (t : Table σ) (index : Nat) : Table σ :=
  { t with slots := E.layout.vacate t.slots index }

/-- Ends the removal of an entry that was taken out of its slot. -/
def closeTaken (t : Table σ) (index : Nat) : Table σ :=
  { t with slots := E.layout.closeGap t.slots index, len := t.len - 1 }

/-- Removes the entry of a slot. -/
def eraseAt (t : Table σ) (index : Nat) : Table σ := (t.takeAt E index).closeTaken E index

/-- Moves the entries to the least table that holds them, unless it is not smaller. This fails where the
search for that table leaves the range of sizes, which it does only if there are more entries than any table
may hold. -/
def compact (t : Table σ) : Change (Table σ) Unit :=
  match t.sizing.compactedFor? t.len with
  | none => .fail t .capacityOverflow
  | some sizing =>
    -- a table that has too many entries for any capacity is not made larger either
    if sizing.capacity < t.capacity then
      { result := .ok (), state := (t.rehash E sizing 0).1
        events := [.rehashed .compact t.capacity sizing.capacity t.len] }
    else .done t ()

/-- Removes all entries: every slot becomes `blank slot`. A table without entries is left as it is. -/
def clearWith (blank : σ → σ) (t : Table σ) : Table σ :=
  if t.isEmpty then t else { t with slots := t.slots.map blank, len := 0 }

/-! ### Iterating -/

/-- An iterator: the slots not yet looked at and the number of entries not yet produced. -/
structure Iter (σ : Type) where
  ahead : List σ
  remaining : Nat

/-- An iterator over the entries, in slot order. -/
def iter (t : Table σ) : Iter σ := { ahead := t.slots.toList, remaining := t.len }

namespace Iter

/-- The first entry in a list of slots, and the slots behind it. -/
def firstEntry : List σ → Option (κ × ν) × List σ
  | [] => (none, [])
  | slot :: rest =>
    match E.entryIn? slot with
    | some e => (some e, rest)
    | none => firstEntry rest

/-- The next entry. There is none once as many were produced as the table counts. -/
def next (it : Iter σ) : Option (κ × ν) × Iter σ :=
  if it.remaining = 0 then (none, it)
  else
    match firstEntry E it.ahead with
    | (some e, ahead) => (some e, { ahead, remaining := it.remaining - 1 })
    | (none, ahead) => (none, { it with ahead })

/-- Calls `next` so many times, or until it gives nothing. -/
def take : (count : Nat) → Iter σ → List (κ × ν) × Iter σ
  | 0, it => ([], it)
  | count + 1, it =>
    match it.next E with
    | (none, it) => ([], it)
    | (some e, it) =>
      let (rest, it) := take count it
      (e :: rest, it)

end Iter

/-! ### Removing by a predicate -/

/-- Goes on with a scan for at most `steps` entries, removing those that a predicate selects; says
whether any was removed. A panic of the predicate ends the scan and leaves what was done before. -/
def sweep (selects : κ → ν → Reply Bool) :
    (steps : Nat) → Scan → Table σ → Bool → Call (Table σ) (κ × ν) Bool
  | 0, _, t, removed => .done t removed
  | steps + 1, scan, t, removed =>
    match scan.advance E.layout t.slots with
    | (none, _) => .done t removed
    | (some index, scan) =>
      match t.entryAt? E index with
      | none => .done t removed
      | some (key, value) =>
        match selects key value with
        | .panics => Call.after (key, value) (.fail t .panicked)
        -- a removal shifts only entries that were passed, if the scan began below a vacant slot
        | .answers true => Call.after (key, value) (sweep selects steps scan (t.eraseAt E index) true)
        | .answers false => Call.after (key, value) (sweep selects steps scan t removed)

/-- Removes the entries that a predicate selects, scanning downwards; says whether any was removed. -/
def eraseWhere (t : Table σ) (selects : κ → ν → Reply Bool) : Call (Table σ) (κ × ν) Bool :=
  t.sweep E selects t.len (.begin E.layout t.slots t.len) false

/-! ### Cursors -/

/-- A cursor over a table, which can remove the entry it produced last. -/
structure Cursor (σ : Type) where
  table : Table σ
  /-- The state of the scan, unless the table keeps it. -/
  own : Option Scan

/-- A cursor before the first entry. Where the state of its scan is kept depends on the mode of the table. -/
def openCursor (t : Table σ) : Cursor σ :=
  let scan := Scan.begin E.layout t.slots t.len
  match t.mode with
  -- a later cursor over the same table replaces the state that this one leaves in it
  | .cached => { table := { t with scan }, own := none }
  | .fresh => { table := t, own := some scan }

namespace Cursor

/-- The state of the scan, wherever it is kept. -/
def scan (c : Cursor σ) : Scan := c.own.getD c.table.scan

/-- Replaces the state of the scan, wherever it is kept. -/
def setScan (c : Cursor σ) (scan : Scan) : Cursor σ :=
  match c.own with
  | some _ => { c with own := some scan }
  | none => { c with table := { c.table with scan } }

def next (c : Cursor σ) : Option (κ × ν) × Cursor σ :=
  let (index?, scan) := c.scan.advance E.layout c.table.slots
  (index?.bind (c.table.entryAt? E), c.setScan scan)

/-- Removes the entry produced last, unless there is none or it is gone already. -/
def remove (c : Cursor σ) : Option (κ × ν) × Cursor σ :=
  let (index?, scan) := c.scan.takeCurrent
  -- the entry is forgotten before it is removed, so a second call finds none
  let c := c.setScan scan
  match index? with
  | none => (none, c)
  | some index => (c.table.entryAt? E index, { c with table := c.table.eraseAt E index })

/-- Rewrites the slot of the entry produced last; says whether there is one. -/
def writeCurrent (c : Cursor σ) (write : σ → σ) : Bool × Cursor σ :=
  match c.scan.current with
  | none => (false, c)
  | some index =>
    (true, { c with table := c.table.setAt index (write (E.layout.slotAt c.table.slots index)) })

end Cursor

end Table

end LinearProbing
