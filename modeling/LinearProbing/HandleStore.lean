/-!
# LinearProbing.HandleStore

**Values under handles.** A store keeps values, and gives each value that is added a handle, under which the
value is found until it is removed. Which handle a value gets is up to the store (`HandleStore`).

In a `SlotStore` a handle is the place of a slot and its version. Slots are used again, but the version of a
slot is raised whenever its value goes, so that a handle that is out of date finds nothing.
-/

namespace LinearProbing

/-- What a store offers that keeps values under handles. -/
class HandleStore (ρ : Type → Type) (θ : outParam Type) where
  empty {α : Type} : ρ α
  size {α : Type} : ρ α → Nat
  get? {α : Type} : ρ α → θ → Option α
  /-- Adds a value; the result is its handle. -/
  insert {α : Type} : ρ α → α → θ × ρ α
  /-- Overwrites the value under a handle, if there is one. -/
  set {α : Type} : ρ α → θ → α → ρ α
  /-- Removes the value under a handle, if there is one. -/
  erase {α : Type} : ρ α → θ → ρ α
  /-- The values with their handles, in some order. -/
  entries {α : Type} : ρ α → List (θ × α)
  /-- Removes all values. -/
  clear {α : Type} : ρ α → ρ α

/-- A place, and how often its value has gone. -/
structure SlotHandle where
  index : Nat
  version : Nat
  deriving DecidableEq

/-- A slot for values, and how often its value has gone. -/
structure VersionedSlot (α : Type) where
  version : Nat
  value? : Option α
  deriving DecidableEq

/-- A store that uses its slots again. -/
structure SlotStore (α : Type) where
  slots : Array (VersionedSlot α) := #[]
  /-- The places of the vacant slots, the one vacated last coming first. -/
  free : List Nat := []
  deriving DecidableEq

namespace SlotStore

variable {α : Type}

def get? (s : SlotStore α) (handle : SlotHandle) : Option α :=
  s.slots[handle.index]?.bind fun slot =>
    if slot.version = handle.version then slot.value? else none

/-- The vacant slot that is used next, with its place. -/
def vacancy? (s : SlotStore α) : Option SlotHandle :=
  s.free.head?.bind fun index =>
    s.slots[index]?.bind fun slot =>
      if slot.value?.isNone then some { index, version := slot.version } else none

/-- Adds a value, in a slot of its own if none is vacant. -/
def insert (s : SlotStore α) (value : α) : SlotHandle × SlotStore α :=
  match s.vacancy? with
  | some handle =>
    (handle,
      { slots := s.slots.setIfInBounds handle.index { version := handle.version, value? := some value }
        free := s.free.tail })
  | none =>
    ({ index := s.slots.size, version := 0 },
      { s with slots := s.slots.push { version := 0, value? := some value } })

def set (s : SlotStore α) (handle : SlotHandle) (value : α) : SlotStore α :=
  match s.get? handle with
  | none => s
  | some _ =>
    { s with
      slots := s.slots.setIfInBounds handle.index { version := handle.version, value? := some value } }

def erase (s : SlotStore α) (handle : SlotHandle) : SlotStore α :=
  match s.get? handle with
  | none => s
  | some _ =>
    { slots := s.slots.setIfInBounds handle.index { version := handle.version + 1, value? := none }
      free := handle.index :: s.free }

/-- The values with their handles, in the order of the slots. -/
def entries (s : SlotStore α) : List (SlotHandle × α) :=
  s.slots.toList.zipIdx.filterMap fun e =>
    e.1.value?.map ({ index := e.2, version := e.1.version }, ·)

def clear (s : SlotStore α) : SlotStore α := s.entries.foldl (fun s e => s.erase e.1) s

end SlotStore

instance : HandleStore SlotStore SlotHandle where
  empty := {}
  size s := s.entries.length
  get? := SlotStore.get?
  insert := SlotStore.insert
  set := SlotStore.set
  erase := SlotStore.erase
  entries := SlotStore.entries
  clear := SlotStore.clear

end LinearProbing
