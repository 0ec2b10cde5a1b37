import LinearProbing.Cursor
import LinearProbing.Hash.Key
import LinearProbing.Table
import LinearProbing.Text

/-!
# LinearProbing.MemberSet

**Sets in a probing table.** How a slot holds a member (`MemberSlot`) and how members are hashed
(`KeyHash`) are parameters; `KeySet` and the table inside a `WordSet` are the two choices in use. Adding
a member that is equal to one that is there changes nothing: the set keeps the member it has.
-/

namespace LinearProbing

/-- Slots that hold a member. -/
class MemberSlot (σ : Type) (α : outParam Type) where
  layout : EntryLayout σ α Unit

/-- A set in a probing table. -/
structure MemberSet (σ η α : Type) where
  hashing : η
  table : Table σ

namespace MemberSet

variable {σ η α : Type}

def len (s : MemberSet σ η α) : Nat := s.table.len

def capacity (s : MemberSet σ η α) : Nat := s.table.capacity

@[inline]
def withTable (s : MemberSet σ η α) (table : Table σ) : MemberSet σ η α := { s with table }

/-- A copy of the set. The state of a cursor is not copied. -/
def copy (s : MemberSet σ η α) : MemberSet σ η α := s.withTable s.table.forgetScan

variable [MemberSlot σ α]

abbrev layout (_ : MemberSet σ η α) : EntryLayout σ α Unit := MemberSlot.layout

/-! ### Construction -/

def ofSizing (sizing : Sizing) (mode : IterationMode) (hashing : η) : MemberSet σ η α :=
  { hashing, table := .ofSizing MemberSlot.layout sizing mode }

/-- A set without members, of the standard size. -/
def empty (hashing : η) : MemberSet σ η α := ofSizing .standard .cached hashing

/-- A set without members, built as a configuration asks. -/
def ofConfig (config : TableConfig) (hashing : η) : Except TableError (MemberSet σ η α) :=
  (Sizing.ofConfig config).map (ofSizing · config.mode hashing)

/-- A set without members, with a capacity and a load factor. -/
def ofCapacity (capacity : Nat) (loadFactor : Single) (hashing : η) :
    Except TableError (MemberSet σ η α) :=
  ofConfig { capacity, loadFactor } hashing

/-! ### Members -/

/-- The members, in slot order. -/
def members (s : MemberSet σ η α) : List α := (s.table.entries s.layout).map Prod.fst

def memberAt? (s : MemberSet σ η α) (index : Nat) : Option α :=
  (s.table.entryAt? s.layout index).map Prod.fst

/-- Removes the members that a predicate does not keep. -/
def retain (s : MemberSet σ η α) (keeps : α → Reply Bool) : Call (MemberSet σ η α) α Unit :=
  let swept := s.table.eraseWhere s.layout fun x _ => (keeps x).map not
  ((swept.within s.withTable).mapCalls Prod.fst).map fun _ => ()

def clear (s : MemberSet σ η α) : MemberSet σ η α :=
  s.withTable (s.table.clearWith fun _ => s.layout.empty)

/-- Moves the members to the least table that holds them. -/
def compact (s : MemberSet σ η α) : Change (MemberSet σ η α) Unit :=
  (s.table.compact s.layout).within s.withTable

def hashCode [Digest] [ContentHash α] (s : MemberSet σ η α) : UInt64 := setContentHash s.members

def toText [Render α] (s : MemberSet σ η α) : String := plainSet s.members

def detailedText [Render α] (s : MemberSet σ η α) : String := detailedSet s.members

variable [KeyHash η α] [BEq α]

def hashOf (s : MemberSet σ η α) (x : α) : UInt64 := KeyHash.hash s.hashing x

def locate (s : MemberSet σ η α) (x : α) : Probe := s.table.locate s.layout (s.hashOf x) x

def find? (s : MemberSet σ η α) (x : α) : Option Nat := s.table.find? s.layout (s.hashOf x) x

def contains (s : MemberSet σ η α) (x : α) : Bool := (s.find? x).isSome

def get? (s : MemberSet σ η α) (x : α) : Option α := (s.find? x).bind s.memberAt?

/-- Adds a member; says whether it is new. -/
def insert (s : MemberSet σ η α) (x : α) : Change (MemberSet σ η α) Bool :=
  match s.locate x with
  | .found _ => .done s false
  | .vacant index =>
    ((s.table.insertAt s.layout index (s.layout.occupy (s.hashOf x) x ())).within s.withTable).map
      fun _ => true
  | .endless => .fail s .endlessSearch

/-- Removes the member that is equal to a value, and gives it back. -/
def take (s : MemberSet σ η α) (x : α) : Option α × MemberSet σ η α :=
  match s.find? x with
  | some index => (s.memberAt? index, s.withTable (s.table.eraseAt s.layout index))
  | none => (none, s)

/-- Removes a member; says whether there was one. -/
def erase (s : MemberSet σ η α) (x : α) : Bool × MemberSet σ η α :=
  let (removed, s) := s.take x
  (removed.isSome, s)

/-! ### Many members at once -/

def extend (s : MemberSet σ η α) (xs : List α) : Change (MemberSet σ η α) Unit :=
  Change.forEach insert xs s

/-- The set of the members of a list, with the default hashing. -/
def ofList [Inhabited η] (xs : List α) : Change (MemberSet σ η α) Unit :=
  (empty default).extend xs

def containsAll (s : MemberSet σ η α) (xs : List α) : Bool := xs.all s.contains

/-- Removes the members of a list; says whether any was removed. -/
def eraseAll (s : MemberSet σ η α) : List α → Bool × MemberSet σ η α
  | [] => (false, s)
  | x :: rest =>
    let (removed, s) := s.erase x
    let (others, s) := s.eraseAll rest
    (removed || others, s)

/-- The members that are not in another set, in a new table of the standard size. -/
def difference (s other : MemberSet σ η α) : Change (MemberSet σ η α) Unit :=
  (ofSizing .standard s.table.mode s.hashing).extend (s.members.filter (! other.contains ·))

def beq (s other : MemberSet σ η α) : Bool := s.len == other.len && other.containsAll s.members

instance : BEq (MemberSet σ η α) := ⟨beq⟩

/-- The set has the members of a list of distinct values, and no others. -/
def beqMembers (s : MemberSet σ η α) (xs : List α) : Bool :=
  s.len == xs.length && s.containsAll xs

/-! ### Cursors -/

omit [KeyHash η α] [BEq α]

structure Cursor (σ η α : Type) where
  source : MemberSet σ η α
  inner : Table.Cursor σ

def openCursor (s : MemberSet σ η α) : Cursor σ η α :=
  { source := s, inner := s.table.openCursor s.layout }

namespace Cursor

def set (c : Cursor σ η α) : MemberSet σ η α := c.source.withTable c.inner.table

def next (c : Cursor σ η α) : Option α × Cursor σ η α :=
  let (e, inner) := c.inner.next c.source.layout
  (e.map Prod.fst, { c with inner })

def remove (c : Cursor σ η α) : Option α × Cursor σ η α :=
  let (e, inner) := c.inner.remove c.source.layout
  (e.map Prod.fst, { c with inner })

instance : CursorInterface (Cursor σ η α) α Empty where
  next := next
  remove := remove
  write value _ := nomatch value

end Cursor

end MemberSet

end LinearProbing
