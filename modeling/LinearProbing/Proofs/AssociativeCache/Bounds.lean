import LinearProbing.Proofs.AssociativeCache.Operation
import LinearProbing.Proofs.AssociativeCache.Represents

/-!
# LinearProbing.Proofs.AssociativeCache.Bounds

**No slot index is out of bounds.** The operations read and write slots by index, and their definitions say
nothing of an index that no slot has. `AssociativeCache.Checked` has each of them once more, so that the
first such index ends it without a result; on the representation of sets it always has one, and it is that
of the operation (`Represents.performChecked_eq`).
-/

namespace LinearProbing

namespace AssociativeCache

namespace Checked

variable {κ ν : Type} [SignedWord κ]

omit [SignedWord κ] in
/-- Reads a slot, if there is one at the index. -/
def slotAt (c : AssociativeCache κ ν) (index : Nat) : Option (CacheSlot κ ν) := c.slots[index]?

omit [SignedWord κ] in
/-- Reads the value of a slot, if there is a slot at the index; the slot may be vacant. -/
def valueAt (c : AssociativeCache κ ν) (index : Nat) : Option (Option ν) :=
  (slotAt c index).map CacheSlot.held

omit [SignedWord κ] in
/-- Writes a slot, if there is one at the index. -/
def setSlot (c : AssociativeCache κ ν) (index : Nat) (slot : CacheSlot κ ν) :
    Option (AssociativeCache κ ν) :=
  if index < c.slots.size then some (c.setSlot index slot) else none

omit [SignedWord κ] in
/-- Makes a slot vacant; its key stays. -/
def vacate (c : AssociativeCache κ ν) (index : Nat) : Option (AssociativeCache κ ν) := do
  let slot ← slotAt c index
  setSlot c index { slot with held := none }

omit [SignedWord κ] in
/-- Moves an entry from one slot into another, both of which must be there. -/
def move (c : AssociativeCache κ ν) (source target : Nat) : Option (AssociativeCache κ ν) := do
  let slot ← slotAt c source
  let c ← setSlot c target slot
  vacate c source

/-- Looks for a key in some slots, up to a vacant one. -/
def positionFrom (c : AssociativeCache κ ν) (key : κ) :
    (slots : Nat) → (index : Nat) → Option (Option Nat)
  | 0, _ => some none
  | slots + 1, index => do
    let slot ← slotAt c index
    if slot.held.isNone then some none
    else if slot.key = key then some (some index)
    else positionFrom c key slots (index + 1)

/-- Looks for a key in the slots of its set. -/
def position (c : AssociativeCache κ ν) (key : κ) : Option (Option Nat) :=
  positionFrom c key c.setSize (c.setStart key)

omit [SignedWord κ] in
/-- Moves entries back by one, the last first. -/
def moveBack (start : Nat) : (count : Nat) → AssociativeCache κ ν → Option (AssociativeCache κ ν)
  | 0, c => some c
  | count + 1, c => do
    let c ← move c (start + count) (start + count + 1)
    moveBack start count c

omit [SignedWord κ] in
/-- Moves entries forward by one, up to a vacant slot. -/
def moveForward :
    (count : Nat) → (index : Nat) → AssociativeCache κ ν → Option (AssociativeCache κ ν)
  | 0, _, c => some c
  | count + 1, index, c => do
    let next ← valueAt c (index + 1)
    if next.isNone then some c
    else
      let c ← move c (index + 1) index
      moveForward count (index + 1) c

omit [SignedWord κ] in
/-- Puts an entry into the first slot of a set, and lets the last one go if the set is full. -/
def insertFront (c : AssociativeCache κ ν) (start : Nat) (key : κ) (value : ν) :
    Option (Disposal (AssociativeCache κ ν) ν) := do
  let last := start + c.setSize - 1
  let oldest ← valueAt c last
  let vacated ← vacate c last
  let moved ← moveBack start (c.setSize - 1) vacated
  let filled ← setSlot moved start ⟨key, some value⟩
  match oldest with
  | some displaced =>
    some { state := filled, disposed := [displaced], events := [.evicted (start / c.setSize)] }
  | none => some { state := { filled with len := c.len + 1 } }

/-- Reads a value; the read is counted. -/
def get (c : AssociativeCache κ ν) (key : κ) : Option (Option ν × AssociativeCache κ ν) := do
  match ← position c key with
  | some index => (valueAt c index).map fun v => (v, { c with hits := c.hits + 1 })
  | none => some (none, { c with misses := c.misses + 1 })

/-- Stores a value under a key that is present or not. -/
def insert (c : AssociativeCache κ ν) (key : κ) (value : ν) :
    Option (Disposal (AssociativeCache κ ν) ν) := do
  let c := { c with puts := c.puts + 1 }
  match ← position c key with
  | some index =>
    let slot ← slotAt c index
    let replaced ← setSlot c index { slot with held := some value }
    some { state := replaced, disposed := slot.held.toList }
  | none => insertFront c (c.setStart key) key value

/-- Reads a value, or stores one that a function makes; it is read again after that. -/
def computeIfAbsent (c : AssociativeCache κ ν) (key : κ) (f : κ → Reply (Option ν)) :
    Option (DisposingCall (AssociativeCache κ ν) κ ν (Option ν)) := do
  match ← position c key with
  | some index =>
    (valueAt c index).map fun v => { toCall := .done { c with hits := c.hits + 1 } v }
  | none =>
    let c := { c with misses := c.misses + 1 }
    match f key with
    | .panics => some { toCall := .after key (.fail c .panicked) }
    | .answers none => some { toCall := .after key (.done c none) }
    | .answers (some value) =>
      let start := c.setStart key
      let stored ← insertFront { c with puts := c.puts + 1 } start key value
      let result ← valueAt stored.state start
      some { result := .ok result, state := stored.state, events := stored.events, calls := [key]
             disposed := stored.disposed }

/-- Removes a key, and moves the entries behind it forward. -/
def erase (c : AssociativeCache κ ν) (key : κ) : Option (Option ν × AssociativeCache κ ν) := do
  match ← position c key with
  | none => some (none, c)
  | some index =>
    let behind := c.setStart key + c.setSize - 1 - index
    let removed ← valueAt c index
    let vacated ← vacate c index
    let closed ← moveForward behind index vacated
    some (removed, { closed with len := c.len - 1 })

/-! ### Within bounds -/

variable {c : AssociativeCache κ ν}

/-- An index that is in bounds is read. -/
theorem slotAt_eq {index : Nat} (h : index < c.slots.size) : slotAt c index = some (c.slotAt index) := by
  simp [slotAt, AssociativeCache.slotAt, h]

theorem valueAt_eq {index : Nat} (h : index < c.slots.size) :
    valueAt c index = some (c.valueAt? index) := by
  rw [valueAt, slotAt_eq h]
  rfl

omit [SignedWord κ] in
/-- An index that is in bounds is written. -/
theorem setSlot_eq {index : Nat} (h : index < c.slots.size) (slot : CacheSlot κ ν) :
    setSlot c index slot = some (c.setSlot index slot) := if_pos h

theorem vacate_eq {index : Nat} (h : index < c.slots.size) : vacate c index = some (c.vacate index) := by
  simp [vacate, slotAt_eq h, setSlot_eq h, AssociativeCache.vacate]

/-- A move between two slots that are there. -/
theorem move_eq {source target : Nat} (hs : source < c.slots.size) (ht : target < c.slots.size) :
    move c source target = some (c.move source target) := by
  have hsize := (rearranges_setSlot c target (c.slotAt source)).size
  simp [move, slotAt_eq hs, setSlot_eq ht, vacate_eq (hsize.symm ▸ hs), AssociativeCache.move]

/-- A search that does not leave the slots is the search of the cache. -/
theorem positionFrom_eq {key : κ} {slots index : Nat} (h : index + slots ≤ c.slots.size) :
    positionFrom c key slots index = some (c.positionFrom? key slots index) := by
  induction slots generalizing index with
  | zero => rfl
  | succ slots ih =>
      have hslot := slotAt_eq (show index < c.slots.size by omega)
      have hrest := ih (show index + 1 + slots ≤ c.slots.size by omega)
      simp only [positionFrom, positionFrom?, hslot, hrest, Option.bind_eq_bind, Option.bind_some]
      split_ifs <;> rfl

/-- The entries that are moved back stay within the slots. -/
theorem moveBack_eq {start count : Nat} (h : start + count < c.slots.size) :
    moveBack start count c = some (AssociativeCache.moveBack start count c) := by
  induction count generalizing c with
  | zero => rfl
  | succ count ih =>
      have hsize := (rearranges_move c (start + count) (start + count + 1)).size
      have hmove := move_eq (show start + count < c.slots.size by omega)
        (show start + count + 1 < c.slots.size by omega)
      simp only [moveBack, AssociativeCache.moveBack, hmove, Option.bind_eq_bind, Option.bind_some]
      exact ih (by omega)

/-- The entries that are moved forward come from slots that are there. -/
theorem moveForward_eq {count index : Nat} (h : index + count < c.slots.size) :
    moveForward count index c = some (AssociativeCache.moveForward count index c) := by
  induction count generalizing c index with
  | zero => rfl
  | succ count ih =>
      have hsize := (rearranges_move c (index + 1) index).size
      have hnext := valueAt_eq (show index + 1 < c.slots.size by omega)
      have hmove := move_eq (show index + 1 < c.slots.size by omega)
        (show index < c.slots.size by omega)
      have hrest := ih (show index + 1 + count < (c.move (index + 1) index).slots.size by omega)
      simp only [moveForward, AssociativeCache.moveForward, hnext, hmove, hrest, Option.bind_eq_bind,
        Option.bind_some]
      split_ifs <;> rfl

/-- The slots of a whole set are there, so a new entry can be put in front. -/
theorem insertFront_eq {start : Nat} (hpos : 0 < c.setSize) (h : start + c.setSize ≤ c.slots.size)
    (key : κ) (value : ν) : insertFront c start key value = some (c.insertFront start key value) := by
  have hlast : start + c.setSize - 1 < c.slots.size := by omega
  have hvacate := rearranges_vacate c (start + c.setSize - 1)
  have hmoved := hvacate.trans (rearranges_moveBack start (c.setSize - 1) _)
  have hback := moveBack_eq (c := c.vacate (start + c.setSize - 1))
    (show start + (c.setSize - 1) < _ by rw [hvacate.size]; omega)
  have hset := setSlot_eq (show start < _ by rw [hmoved.size]; omega) ⟨key, some value⟩
  simp only [insertFront, valueAt_eq hlast, vacate_eq hlast, hback, hset, Option.bind_eq_bind,
    Option.bind_some]
  cases holdest : c.valueAt? (start + c.setSize - 1) <;>
    simp only [AssociativeCache.insertFront, holdest]

theorem valueAt_insertFront {start : Nat} (hpos : 0 < c.setSize)
    (h : start + c.setSize ≤ c.slots.size) (key : κ) (value : ν) :
    valueAt (c.insertFront start key value).state start =
      some ((c.insertFront start key value).state.valueAt? start) := by
  have hsize := size_insertFront c start key value
  exact valueAt_eq (by omega)

variable {m : FifoSets κ ν}

/-- The slots of the set of a key are all there. -/
theorem position_eq (h : c.Represents m) (key : κ) : position c key = some (c.position? key) :=
  positionFrom_eq (h.window_le key)

theorem get_eq (h : c.Represents m) (key : κ) : get c key = some (c.get key) := by
  rcases h.position?_cases key with hposition | ⟨index, hindex, hposition⟩
  · simp [get, position_eq h, AssociativeCache.get, hposition]
  · simp [get, position_eq h, AssociativeCache.get, hposition, valueAt_eq hindex]

theorem insert_eq (h : c.Represents m) (key : κ) (value : ν) :
    insert c key value = some (c.insert key value) := by
  have hstored := h.stored
  rcases hstored.position?_cases key with hposition | ⟨index, hindex, hposition⟩
  · have hfront := insertFront_eq hstored.setSize_pos (hstored.window_le key) key value
    simpa [insert, position_eq hstored, AssociativeCache.insert, hposition] using hfront
  · simp [insert, position_eq hstored, AssociativeCache.insert, hposition, slotAt_eq hindex,
      setSlot_eq hindex, valueAt?]

/-- Also the slot that is read again, after a value was stored, is there. -/
theorem computeIfAbsent_eq (h : c.Represents m) (key : κ) (f : κ → Reply (Option ν)) :
    computeIfAbsent c key f = some (c.computeIfAbsent key f) := by
  rcases h.position?_cases key with hposition | ⟨index, hindex, hposition⟩
  · -- the read and the store are counted before anything is moved
    have hstored := h.missed.stored
    have hfront := insertFront_eq hstored.setSize_pos (hstored.window_le key) key
    have hresult := valueAt_insertFront hstored.setSize_pos (hstored.window_le key) key
    simp only [computeIfAbsent, position_eq h, AssociativeCache.computeIfAbsent, hposition,
      Option.bind_eq_bind, Option.bind_some]
    cases f key with
    | panics => rfl
    | answers made =>
        cases made with
        | none => rfl
        | some value =>
            exact (congrArg (Option.bind · _) (hfront value)).trans
              (congrArg (Option.bind · _) (hresult value))
  · simp [computeIfAbsent, position_eq h, AssociativeCache.computeIfAbsent, hposition,
      valueAt_eq hindex]

theorem erase_eq (h : c.Represents m) (key : κ) : erase c key = some (c.erase key) := by
  rcases h.position?_cases key with hposition | ⟨index, hindex, hposition⟩
  · simp [erase, position_eq h, AssociativeCache.erase, hposition]
  · have hpos := h.setSize_pos
    have hwindow := h.window_le key
    have hsize := (rearranges_vacate c index).size
    have hclose := moveForward_eq (c := c.vacate index)
      (show index + (c.setStart key + c.setSize - 1 - index) < _ by omega)
    simp [erase, position_eq h, AssociativeCache.erase, hposition, valueAt_eq hindex,
      vacate_eq hindex, hclose]

end Checked

namespace Operation

variable {κ ν : Type} [SignedWord κ] [BEq ν]

/-- An operation that ends without a result at the first slot index that is out of bounds. The
operations that go through all slots use none. -/
def performChecked (op : Operation κ ν) (c : AssociativeCache κ ν) :
    Option (Call (AssociativeCache κ ν) (CacheInvocation κ ν) (CacheAnswer (κ × ν) ν)) :=
  match op with
  | get key => (Checked.get c key).map fun r => .done r.2 (.value? r.1)
  | contains key => (Checked.position c key).map fun index => .done c (.flag index.isSome)
  | insert key value =>
    (Checked.insert c key value).map fun d =>
      (DisposingCall.ofDisposal d).makingFirst.map fun _ => .nothing
  | computeIfAbsent key f => (Checked.computeIfAbsent c key f).map fun d => d.makingFirst.map .value?
  | erase key => (Checked.erase c key).map fun r => .done r.2 (.value? r.1)
  | containsValue _ | clear | resetCounters | entries | forEach _ | len => some (op.perform c)

end Operation

/-- **Every slot index that an operation computes is in bounds.** -/
theorem Represents.performChecked_eq {κ ν : Type} [SignedWord κ] [BEq ν] {c : AssociativeCache κ ν}
    {m : FifoSets κ ν} (h : c.Represents m) (op : Operation κ ν) :
    op.performChecked c = some (op.perform c) := by
  cases op with
  | get key => simp [Operation.performChecked, Checked.get_eq h, Operation.perform]
  | contains key => simp [Operation.performChecked, Checked.position_eq h, Operation.perform, contains]
  | insert key value => simp [Operation.performChecked, Checked.insert_eq h, Operation.perform]
  | computeIfAbsent key f =>
      simp [Operation.performChecked, Checked.computeIfAbsent_eq h, Operation.perform]
  | erase key => simp [Operation.performChecked, Checked.erase_eq h, Operation.perform]
  | _ => rfl

end AssociativeCache

end LinearProbing
