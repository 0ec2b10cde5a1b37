import LinearProbing.Slots

/-!
# LinearProbing.Scan

**Scanning a table while entries are removed.** A scan goes down through the slots, once around the
ring, from just below a slot that was vacant when it began. A removal moves later members of its run
back, and these were visited before, as no run goes across the vacant slot; so nothing is skipped or
visited twice.
-/

namespace LinearProbing

/-- The state of a scan. -/
structure Scan where
  /-- The slot below which the scan began. -/
  start : Nat := 0
  ahead : Nat := 0
  remaining : Nat := 0
  /-- The slot of the occupant produced last. -/
  current : Option Nat := none

namespace Scan

variable {σ : Type} (L : Layout σ)

/-- The slot below which a scan begins: the end of the array if the last slot is vacant, else the
lowest vacant slot. -/
def origin (slots : Array σ) : Nat :=
  if L.vacantAt slots (slots.size - 1) then slots.size
  else (slots.findIdx? L.vacant).getD slots.size

/-- A scan of a table of `len` entries that is about to begin. -/
def begin (slots : Array σ) (len : Nat) : Scan :=
  { start := origin L slots, ahead := slots.size, remaining := len }

/-- The next occupied slot downwards among those not yet looked at, with the number of slots below
it. -/
def search (slots : Array σ) (start : Nat) : (ahead : Nat) → Option (Nat × Nat)
  | 0 => none
  | ahead + 1 =>
    -- the walk goes down from the start, and on from the end of the array to the slot after the start
    let index := (start + ahead) % slots.size
    if L.vacantAt slots index then search slots start ahead else some (index, ahead)

/-- Goes on to the next occupied slot. There is none once as many were produced as there were entries
when the scan began. -/
def advance (slots : Array σ) (s : Scan) : Option Nat × Scan :=
  if s.remaining = 0 then (none, { s with current := none })
  else
    match search L slots s.start s.ahead with
    | some (index, ahead) =>
      (some index, { s with ahead, remaining := s.remaining - 1, current := some index })
    | none => (none, { s with ahead := 0, current := none })

/-- The slot of the occupant produced last, which is given away only once. -/
def takeCurrent (s : Scan) : Option Nat × Scan := (s.current, { s with current := none })

end Scan

end LinearProbing
