import LinearProbing.Outcome

/-!
# LinearProbing.Cursor

**What callers do with cursors.** A cursor goes from entry to entry (`next`), removes the entry that it
produced last (`remove`), or writes to it (`write`). A script is a list of such actions; the most common
use of a cursor is to go through all entries and remove some (`removeWhere`).
-/

namespace LinearProbing

/-- What all cursors do: `ε` is what they produce, `ω` what can be written. -/
class CursorInterface (χ : Type) (ε ω : outParam Type) where
  /-- Goes on to the next entry. -/
  next : χ → Option ε × χ
  /-- Removes the entry produced last, and gives it back. -/
  remove : χ → Option ε × χ
  /-- Writes to the entry produced last; says whether it was written. -/
  write : ω → χ → Except TableError Bool × χ

/-- One action on a cursor. -/
inductive CursorAction (ω : Type) where
  | next
  | remove
  | write (value : ω)

/-- What one action on a cursor gives. -/
inductive CursorAnswer (ε : Type) where
  | entry (e : Option ε)
  | written (done : Bool)
  | refused (error : TableError)

namespace CursorInterface

variable {χ ε ω : Type} [CursorInterface χ ε ω]

def act : CursorAction ω → χ → CursorAnswer ε × χ
  | .next, c => let (e, c) := next c; (.entry e, c)
  | .remove, c => let (e, c) := remove c; (.entry e, c)
  | .write value, c =>
    match write value c with
    | (.ok done, c) => (.written done, c)
    | (.error error, c) => (.refused error, c)

/-- Performs the actions of a script, one after the other. -/
def runScript : List (CursorAction ω) → χ → List (CursorAnswer ε) × χ
  | [], c => ([], c)
  | action :: rest, c =>
    let (answer, c) := act action c
    let (answers, c) := runScript rest c
    (answer :: answers, c)

/-- Goes through at most `steps` entries and removes those that a predicate selects; the result is
the list of removed entries. -/
def removeWhere (selects : ε → Reply Bool) : (steps : Nat) → χ → Call χ ε (List ε)
  | 0, c => .done (next c).2 []
  | steps + 1, c =>
    match next c with
    | (none, c) => .done c []
    | (some e, c) =>
      match selects e with
      | .panics => .after e (.fail c .panicked)
      | .answers true =>
        let (removed, c) := remove c
        .after e ((removeWhere selects steps c).map (removed.toList ++ ·))
      | .answers false => .after e (removeWhere selects steps c)

end CursorInterface

end LinearProbing
