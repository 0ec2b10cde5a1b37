import LinearProbing.MemberSet

/-!
# LinearProbing.WordSet

**Sets of words.** The members lie inline in the slots, and a slot that holds minus one is vacant. Minus
one is a member like any other all the same: whether it is one is kept beside the table. It comes last
wherever the members are listed.
-/

namespace LinearProbing

instance {α : Type} [SignedWord α] : MemberSlot α α where
  layout :=
    { empty := SignedWord.minusOne
      entryIn? := fun s => if s = SignedWord.minusOne then none else some (s, ())
      hash := SignedWord.spread
      occupy := fun _ x _ => x
      leave := fun _ => SignedWord.minusOne }

structure WordSet (α : Type) where
  /-- The members other than minus one. -/
  inner : MemberSet α Spreading α
  marked : Bool

namespace WordSet

variable {α : Type} [SignedWord α]

/-! ### Construction -/

/-- A set without members, of the standard size. -/
def empty : WordSet α := { inner := .empty {}, marked := false }

/-- A set without members, built as a configuration asks. -/
def ofConfig (config : TableConfig) : Except TableError (WordSet α) :=
  (MemberSet.ofConfig config ({} : Spreading)).map ({ inner := ·, marked := false })

/-- A set without members, with a capacity and a load factor. -/
def ofCapacity (capacity : Nat) (loadFactor : Single) : Except TableError (WordSet α) :=
  ofConfig { capacity, loadFactor }

/-! ### Members -/

def len (s : WordSet α) : Nat := s.inner.len + s.marked.toNat

def isEmpty (s : WordSet α) : Bool := s.len == 0

def capacity (s : WordSet α) : Nat := s.inner.capacity

/-- Minus one as a list, if it is a member. -/
def marker (s : WordSet α) : List α := if s.marked then [SignedWord.minusOne] else []

/-- The members: those in the table in slot order, then minus one. -/
def members (s : WordSet α) : List α := s.inner.members ++ s.marker

def contains (s : WordSet α) (x : α) : Bool :=
  if x = SignedWord.minusOne then s.marked else s.inner.contains x

/-- Adds a member; says whether it is new. -/
def insert (s : WordSet α) (x : α) : Change (WordSet α) Bool :=
  if x = SignedWord.minusOne then .done { s with marked := true } (! s.marked)
  else (s.inner.insert x).within fun inner => { s with inner }

/-- Removes a member; says whether there was one. -/
def erase (s : WordSet α) (x : α) : Bool × WordSet α :=
  if x = SignedWord.minusOne then (s.marked, { s with marked := false })
  else
    let (removed, inner) := s.inner.erase x
    (removed, { s with inner })

/-- Removes the members that a predicate does not keep. Minus one is asked about last. -/
def retain (s : WordSet α) (keeps : α → Reply Bool) : Call (WordSet α) α Unit :=
  let swept := (s.inner.retain keeps).within fun inner => { s with inner }
  match swept.result with
  | .error _ => swept
  | .ok _ =>
    -- the table was scanned without a panic, so minus one is asked about as well
    if s.marked then
      let asked := swept.calls ++ [SignedWord.minusOne]
      match keeps SignedWord.minusOne with
      | .panics => { swept with result := .error .panicked, calls := asked }
      | .answers kept => { swept with state := { swept.state with marked := kept }, calls := asked }
    else swept

def clear (s : WordSet α) : WordSet α := { inner := s.inner.clear, marked := false }

/-- Moves the members to the least table that holds them. -/
def compact (s : WordSet α) : Change (WordSet α) Unit :=
  s.inner.compact.within fun inner => { s with inner }

/-! ### Many members at once -/

def extend (s : WordSet α) (xs : List α) : Change (WordSet α) Unit := Change.forEach insert xs s

def ofList (xs : List α) : Change (WordSet α) Unit := extend empty xs

def containsAll (s : WordSet α) (xs : List α) : Bool := xs.all s.contains

/-- Removes the members of a list; says whether any was removed. -/
def eraseAll (s : WordSet α) : List α → Bool × WordSet α
  | [] => (false, s)
  | x :: rest =>
    let (removed, s) := s.erase x
    let (others, s) := s.eraseAll rest
    (removed || others, s)

/-- The members that are not in another set, in a new table of the standard size. -/
def difference (s other : WordSet α) : Change (WordSet α) Unit :=
  let fresh : WordSet α :=
    { inner := .ofSizing .standard s.inner.table.mode {}, marked := false }
  fresh.extend (s.members.filter (! other.contains ·))

def beq (s other : WordSet α) : Bool := s.len == other.len && other.containsAll s.members

instance : BEq (WordSet α) := ⟨beq⟩

/-- The set has the members of a list of distinct values, and no others. -/
def beqMembers (s : WordSet α) (xs : List α) : Bool := s.len == xs.length && s.containsAll xs

def hashCode [Digest] [ContentHash α] (s : WordSet α) : UInt64 := setContentHash s.members

def toText (s : WordSet α) : String := plainSet s.members

def detailedText (s : WordSet α) : String := detailedSet s.members

/-! ### Iterating -/

/-- An iterator: the one over the table, and whether minus one is still to come. -/
structure Iter (α : Type) where
  inner : Table.Iter α
  /-- Minus one is still to come. -/
  pending : Bool

def iter (s : WordSet α) : Iter α := { inner := s.inner.table.iter, pending := s.marked }

namespace Iter

def remaining (it : Iter α) : Nat := it.inner.remaining + it.pending.toNat

def next (it : Iter α) : Option α × Iter α :=
  match it.inner.next MemberSlot.layout with
  | (some (x, _), inner) => (some x, { it with inner })
  | (none, inner) =>
    -- the table is exhausted, and minus one comes last
    if it.pending then (some SignedWord.minusOne, { inner, pending := false })
    else (none, { it with inner })

/-- Calls `next` so many times, or until it gives nothing. -/
def take : (count : Nat) → Iter α → List α × Iter α
  | 0, it => ([], it)
  | count + 1, it =>
    match it.next with
    | (none, it) => ([], it)
    | (some x, it) =>
      let (rest, it) := take count it
      (x :: rest, it)

end Iter

/-! ### Cursors -/

/-- A cursor over a set: the one over the table, and the place of minus one. -/
structure Cursor (α : Type) where
  inner : MemberSet.Cursor α Spreading α
  marked : Bool
  /-- Minus one is still to come. -/
  pending : Bool
  atMarker : Bool

def openCursor (s : WordSet α) : Cursor α :=
  { inner := s.inner.openCursor, marked := s.marked, pending := s.marked, atMarker := false }

namespace Cursor

def set (c : Cursor α) : WordSet α := { inner := c.inner.set, marked := c.marked }

def next (c : Cursor α) : Option α × Cursor α :=
  match c.inner.next with
  | (some x, inner) => (some x, { c with inner })
  | (none, inner) =>
    if c.pending then
      (some SignedWord.minusOne, { c with inner, pending := false, atMarker := true })
    else (none, { c with inner, atMarker := false })

def remove (c : Cursor α) : Option α × Cursor α :=
  if c.atMarker then (some SignedWord.minusOne, { c with marked := false, atMarker := false })
  else
    let (x, inner) := c.inner.remove
    (x, { c with inner })

instance : CursorInterface (Cursor α) α Empty where
  next := next
  remove := remove
  write value _ := nomatch value

end Cursor

end WordSet

end LinearProbing
