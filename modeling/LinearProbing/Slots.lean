import LinearProbing.Hash.Mix

/-!
# LinearProbing.Slots

**Linear probing on an array of slots.** The slots of a table form a ring. An occupant belongs into its
home slot and sits there or further on, with no vacant slot in between; so the search for it starts at
its home and ends at the first vacant slot (`Layout.probe`).

Deletion leaves no marks. When a slot becomes vacant, the run of occupied slots behind it is walked
once (`Layout.closeGap`), and each occupant that may sit in the gap is moved there and leaves a gap of
its own. It may when the gap lies on the way from its home to it (`canFillGap`), so no occupant is
moved before its home.
-/

namespace LinearProbing

/-- How an array of slots is read: what a slot holds is up to the container. -/
structure Layout (σ : Type) where
  empty : σ
  vacant : σ → Bool
  hash : σ → Nat
  /-- What is left of a slot when its occupant goes. -/
  leave : σ → σ

/-- The slot after `index` on a ring of `size` slots. -/
def nextSlot (size index : Nat) : Nat := (index + 1) % size

/-- An occupant at `index` may move back to `gap`: the gap lies on the way from its home to it, which
leaves the end of the ring and comes in at the start when the home lies behind the index. -/
def canFillGap (home gap index : Nat) : Bool :=
  if home ≤ index then home ≤ gap && gap < index
  else home ≤ gap || gap < index

/-- Where the search for a key ends. -/
inductive Probe where
  | found (index : Nat)
  /-- At the vacant slot that the key would take. -/
  | vacant (index : Nat)
  /-- Nowhere: every slot is taken by another key. -/
  | endless
  deriving DecidableEq

namespace Layout

variable {σ : Type} (L : Layout σ)

def slotAt (slots : Array σ) (index : Nat) : σ := slots.getD index L.empty

def vacantAt (slots : Array σ) (index : Nat) : Bool := L.vacant (L.slotAt slots index)

/-- The home of an occupant in an array of `size` slots. -/
def home (size : Nat) (slot : σ) : Nat := homeSlot (L.hash slot) size

/-- The occupants, in slot order. -/
def occupants (slots : Array σ) : List σ := slots.toList.filter (! L.vacant ·)

/-! ### Searching -/

/-- Walks along the ring to the first slot that is vacant or accepted, over `steps` slots at most. -/
def probeFrom (slots : Array σ) (accepts : σ → Bool) : (steps : Nat) → (index : Nat) → Probe
  -- all slots were passed, none of them vacant: the walk would go round again, for ever
  | 0, _ => .endless
  | steps + 1, index =>
    if L.vacantAt slots index then .vacant index
    else if accepts (L.slotAt slots index) then .found index
    else probeFrom slots accepts steps (nextSlot slots.size index)

/-- The search from a home slot, once around the ring at most. -/
def probe (slots : Array σ) (accepts : σ → Bool) (home : Nat) : Probe :=
  L.probeFrom slots accepts slots.size home

/-- Walks along the ring to the first vacant slot, over `steps` slots at most. -/
def firstVacantFrom (slots : Array σ) : (steps : Nat) → (index : Nat) → Option Nat
  | 0, _ => none
  | steps + 1, index =>
    if L.vacantAt slots index then some index
    else firstVacantFrom slots steps (nextSlot slots.size index)

/-- The first vacant slot from a home slot on, for a key that is known to be absent. -/
def firstVacant? (slots : Array σ) (home : Nat) : Option Nat :=
  L.firstVacantFrom slots slots.size home

/-! ### Deleting -/

def vacate (slots : Array σ) (index : Nat) : Array σ :=
  slots.setIfInBounds index (L.leave (L.slotAt slots index))

/-- Moves the occupant of one slot into a vacant one. -/
def shift (slots : Array σ) (source target : Nat) : Array σ :=
  L.vacate (slots.setIfInBounds target (L.slotAt slots source)) source

/-- Walks from `index` to the end of the run, over `steps` slots at most, and moves into the gap what
may sit there; the slot it leaves is the next gap. An occupant that may not move is passed over, as a
later one still may. -/
def closeGapFrom : (steps : Nat) → (gap index : Nat) → Array σ → Array σ
  | 0, _, _, slots => slots
  | steps + 1, gap, index, slots =>
    if L.vacantAt slots index then slots
    -- whether it may move depends on its own home, so a later occupant may move where this one may not
    else if canFillGap (L.home slots.size (L.slotAt slots index)) gap index then
      closeGapFrom steps index (nextSlot slots.size index) (L.shift slots index gap)
    else closeGapFrom steps gap (nextSlot slots.size index) slots

/-- Closes the gap that a vacated slot leaves in its run. -/
def closeGap (slots : Array σ) (gap : Nat) : Array σ :=
  L.closeGapFrom slots.size gap (nextSlot slots.size gap) slots

/-! ### Moving to another number of slots -/

/-- Puts the occupants of a list of slots, which starts at `index`, one after the other into the first
vacant slots from their homes. Follows the occupant of the slot `tracked`: the second component is
its new slot. -/
def refill (tracked : Nat) : (index : Nat) → List σ → Array σ × Nat → Array σ × Nat
  | _, [], moved => moved
  | index, slot :: rest, (slots, seen) =>
    if L.vacant slot then refill tracked (index + 1) rest (slots, seen)
    else
      match L.firstVacant? slots (L.home slots.size slot) with
      -- does not happen as long as there are fewer occupants than slots
      | none => refill tracked (index + 1) rest (slots, seen)
      | some target =>
        refill tracked (index + 1) rest
          (slots.setIfInBounds target slot, if index = tracked then target else seen)

/-- The occupants in a fresh array of `capacity` slots, with the new slot of the tracked one. -/
def rehash (slots : Array σ) (capacity tracked : Nat) : Array σ × Nat :=
  L.refill tracked 0 slots.toList (Array.replicate capacity L.empty, tracked)

end Layout

end LinearProbing
