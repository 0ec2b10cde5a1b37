import LinearProbing.Disposal
import LinearProbing.HandleStore
import LinearProbing.WordKeyMap

/-!
# LinearProbing.RecencyCache

**Caches of the most recently used values.** A lookup of a key that is not there builds its value with a
factory; a lookup of any key makes it the most recently used one. A full cache makes room first: it
removes the key that was not used for the longest time, and its value is closed.

The entries are nodes of a doubly linked list, from the most recently used (`head`) to the least
(`tail`). The nodes are kept in a store, which names them by handles, and an index maps keys to handles. The
store is a parameter.
-/

namespace LinearProbing

/-- An entry and the handles of its neighbours. -/
structure RecencyNode (κ ν θ : Type) where
  key : κ
  value : ν
  newer : Option θ
  older : Option θ

/-- A cache of recently used values. -/
structure RecencyCache (κ ν : Type) (ρ : Type → Type := SlotStore) (θ : Type := SlotHandle) where
  capacity : Nat
  nodes : ρ (RecencyNode κ ν θ)
  index : WordKeyMap κ θ
  head : Option θ
  tail : Option θ

namespace RecencyCache

variable {κ ν θ : Type} {ρ : Type → Type} [HandleStore ρ θ]

def ofCapacity [SignedWord κ] (capacity : Nat) : Except TableError (RecencyCache κ ν ρ θ) :=
  if capacity = 0 then .error .zeroCapacity
  else
    .ok { capacity, nodes := HandleStore.empty, index := .empty .nonNull {}, head := none, tail := none }

def len (c : RecencyCache κ ν ρ θ) : Nat := HandleStore.size c.nodes

def isEmpty (c : RecencyCache κ ν ρ θ) : Bool := c.len == 0

omit [HandleStore ρ θ] in
/-- The key is present; this is no use of it. -/
def contains [SignedWord κ] (c : RecencyCache κ ν ρ θ) (key : κ) : Bool := c.index.contains key

/-! ### The list of nodes -/

def node? (c : RecencyCache κ ν ρ θ) (handle : θ) : Option (RecencyNode κ ν θ) :=
  HandleStore.get? c.nodes handle

def modifyNode (c : RecencyCache κ ν ρ θ) (handle : θ) (f : RecencyNode κ ν θ → RecencyNode κ ν θ) :
    RecencyCache κ ν ρ θ :=
  match c.node? handle with
  | none => c
  | some node => { c with nodes := HandleStore.set c.nodes handle (f node) }

/-- The handle of a neighbour, if it is there. -/
def live? (c : RecencyCache κ ν ρ θ) (handle : Option θ) : Option θ :=
  handle.filter fun handle => (c.node? handle).isSome

/-- Lets `older` follow a node, or come first if there is no such node. -/
def setOlder (c : RecencyCache κ ν ρ θ) (newer older : Option θ) : RecencyCache κ ν ρ θ :=
  match c.live? newer with
  | some handle => c.modifyNode handle ({ · with older })
  | none => { c with head := older }

/-- Lets `newer` precede a node, or come last if there is no such node. -/
def setNewer (c : RecencyCache κ ν ρ θ) (older newer : Option θ) : RecencyCache κ ν ρ θ :=
  match c.live? older with
  | some handle => c.modifyNode handle ({ · with newer })
  | none => { c with tail := newer }

/-- Takes a node out of the list, and joins its neighbours. -/
def unlink (c : RecencyCache κ ν ρ θ) (handle : θ) : RecencyCache κ ν ρ θ :=
  match c.node? handle with
  | none => c
  | some node =>
    let c := c.modifyNode handle ({ · with newer := none, older := none })
    -- the neighbours are those that the node had before it lost its links
    (c.setOlder node.newer node.older).setNewer node.older node.newer

/-- Puts a node at the front of the list. -/
def pushFront (c : RecencyCache κ ν ρ θ) (handle : θ) : RecencyCache κ ν ρ θ :=
  let former := c.head
  let c := c.modifyNode handle ({ · with newer := none, older := former })
  { c.setNewer former (some handle) with head := some handle }

/-- The nodes met when going from one to the next, so many at most, with their handles. -/
def follow (c : RecencyCache κ ν ρ θ) (next : RecencyNode κ ν θ → Option θ) :
    (steps : Nat) → Option θ → List (θ × RecencyNode κ ν θ)
  | 0, _ | _, none => []
  | steps + 1, some handle =>
    match c.node? handle with
    | none => []
    | some node => (handle, node) :: follow c next steps (next node)

/-- The keys, from the most recently used to the least. -/
def keys (c : RecencyCache κ ν ρ θ) : List κ :=
  (c.follow RecencyNode.older c.len c.head).map fun e => e.2.key

/-! ### Looking up -/

variable [SignedWord κ]

/-- Removes the least recently used entry and hands its value over. -/
def evict (c : RecencyCache κ ν ρ θ) : Disposal (RecencyCache κ ν ρ θ) ν :=
  match c.tail with
  | none => { state := c }
  | some last =>
    let c := c.unlink last
    match c.node? last with
    | none => { state := c }
    | some node =>
      let c :=
        { c with nodes := HandleStore.erase c.nodes last, index := (c.index.erase node.key).2 }
      { state := c, disposed := [node.value], events := [.entryClosed (wordText node.key)] }

def makeRoom (c : RecencyCache κ ν ρ θ) : Disposal (RecencyCache κ ν ρ θ) ν :=
  if c.len = c.capacity then c.evict else { state := c }

/-- Adds a node for a new key. It is not in the list yet. -/
def addNode (c : RecencyCache κ ν ρ θ) (key : κ) (value : ν) : Change (RecencyCache κ ν ρ θ) θ :=
  let (handle, nodes) :=
    HandleStore.insert c.nodes ({ key, value, newer := none, older := none } : RecencyNode κ ν θ)
  let c := { c with nodes }
  -- a growth of the index that fails leaves the node in the store, where no key leads to it
  ((c.index.insert key handle).within fun index => { c with index }).map fun _ => handle

omit [SignedWord κ] in
/-- Puts a node at the front of the list; the result is its value. -/
def touch (c : RecencyCache κ ν ρ θ) (handle : θ) : Change (RecencyCache κ ν ρ θ) (Option ν) :=
  let c := c.pushFront handle
  .done c ((c.node? handle).map RecencyNode.value)

/-- The value of a key, which is now the most recently used one. The value of a key that was absent is
built by the factory, after room was made for it. -/
def lookup (c : RecencyCache κ ν ρ θ) (key : κ) (factory : κ → Reply ν) :
    DisposingCall (RecencyCache κ ν ρ θ) κ ν (Option ν) :=
  match c.index.get? key with
  | some handle => { toCall := .quiet ((c.unlink handle).touch handle) }
  | none =>
    -- room is made before the factory is called; a factory that panics has cost an entry all the same
    let room := c.makeRoom
    let built := Call.run key (factory key) room.state fun value =>
      (room.state.addNode key value).andThen touch
    { built with events := room.events ++ built.events, disposed := room.disposed }

/-- Removes all entries and hands their values over. -/
def close (c : RecencyCache κ ν ρ θ) : Disposal (RecencyCache κ ν ρ θ) ν where
  state :=
    { c with nodes := HandleStore.clear c.nodes, index := c.index.clear, head := none, tail := none }
  disposed := (HandleStore.entries c.nodes).map fun e => e.2.value

end RecencyCache

end LinearProbing
