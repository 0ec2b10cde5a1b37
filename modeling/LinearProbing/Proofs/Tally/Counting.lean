import LinearProbing.Proofs.Tally.Operation
import LinearProbing.Proofs.Word
import Mathlib.Logic.Function.Basic

/-!
# LinearProbing.Proofs.Tally.Counting

**Counting functions.** What a tally is meant to be: a function that gives a count for every key, and that
differs from the initial value on finitely many keys (`Support`). Nothing is inserted or removed: an
operation changes the count of a key, whatever it was before, and the sum wraps around at the width of the
counts (`SignedWord.plus`).
-/

namespace LinearProbing.Tally

variable {κ ν : Type}

/-- A list of the keys whose count differs from the initial value, with their counts. -/
structure Support (initial : ν) (f : κ → ν) (entries : List (κ × ν)) : Prop where
  distinct : (entries.map Prod.fst).Nodup
  mem_iff : ∀ e : κ × ν, e ∈ entries ↔ f e.1 = e.2 ∧ e.2 ≠ initial

/-- A count is an extreme one among those that differ from the initial value; it is the initial value if
there are none. -/
def Extreme [SignedWord ν] (before : Int → Int → Prop) (initial : ν) (f : κ → ν) (count : ν) : Prop :=
  ((∀ key, f key = initial) ∧ count = initial) ∨
    ((∃ key, f key = count) ∧ count ≠ initial ∧
      ∀ key, f key ≠ initial → before (SignedWord.toInt count) (SignedWord.toInt (f key)))

/-- The function that gives what is read from a finite map: for an absent key, the initial value. -/
abbrev countsOf [SignedWord κ] (initial : ν) (M : FiniteMap κ ν) : κ → ν := WordMap.Spec.read initial M

/-! ### Operations -/

namespace Spec

variable [SignedWord κ] [SignedWord ν]

/-- Sets the count of a key. -/
abbrev set (f : κ → ν) (key : κ) (count : ν) : κ → ν := Function.update f key count

/-- Adds to the count of a key; the result is the former count and the new one. -/
def add (f : κ → ν) (key : κ) (amount : Int) : Change (κ → ν) (ν × ν) :=
  let sum := SignedWord.plus (f key) amount
  .done (set f key sum) (f key, sum)

/-- The count of a key; if it is the initial value, a function computes it. -/
def computeIfAbsent (initial : ν) (f : κ → ν) (key : κ) (g : κ → Reply ν) : Call (κ → ν) κ ν :=
  if f key = initial then .run key (g key) f fun count => .done (set f key count) count
  else .done f (f key)

/-- Computes a new count from the current one. -/
def compute (f : κ → ν) (key : κ) (g : κ → ν → Reply ν) : Call (κ → ν) (κ × ν) ν :=
  .run (key, f key) (g key (f key)) f fun count => .done (set f key count) count

/-- Computes a new count if the current one differs from the initial value. -/
def computeIfPresent (initial : ν) (f : κ → ν) (key : κ) (g : κ → ν → Reply ν) :
    Call (κ → ν) (κ × ν) ν :=
  if f key = initial then .done f initial else compute f key g

/-- Sets the counts that a predicate selects to the initial value, going through those that differ from it
in some order. -/
def eraseWhere (initial : ν) (order : List (κ × ν)) (selects : κ → ν → Reply Bool) :
    Call (κ → ν) (κ × ν) Bool :=
  (WordMap.Spec.eraseWhere order selects).within (countsOf initial)

end Spec

namespace Operation

variable [SignedWord κ] [SignedWord ν]

/-- What an operation may do to a counting function. -/
def Allows (initial : ν) (op : Operation κ ν) (f : κ → ν) (d : WordMap.OperationCall (κ → ν) κ ν) :
    Prop :=
  match op with
  | get key => d = .done f (.value (f key))
  | contains key => d = .done f (.flag (f key ≠ initial))
  | len => ∃ entries, Support initial f entries ∧ d = .done f (.count entries.length)
  | minimum => ∃ count, Extreme (· ≤ ·) initial f count ∧ d = .done f (.value count)
  | maximum => ∃ count, Extreme (· ≥ ·) initial f count ∧ d = .done f (.value count)
  | set key count => d = .done (Spec.set f key count) (.value (f key))
  | erase key => d = .done (Spec.set f key initial) (.value (f key))
  | addAndGet key amount => d = .quiet ((Spec.add f key (SignedWord.toInt amount)).map (.value ·.2))
  | getAndAdd key amount => d = .quiet ((Spec.add f key (SignedWord.toInt amount)).map (.value ·.1))
  | incrementAndGet key => d = .quiet ((Spec.add f key 1).map (.value ·.2))
  | decrementAndGet key => d = .quiet ((Spec.add f key (-1)).map (.value ·.2))
  | getAndIncrement key => d = .quiet ((Spec.add f key 1).map (.value ·.1))
  | getAndDecrement key => d = .quiet ((Spec.add f key (-1)).map (.value ·.1))
  | computeIfAbsent key g =>
    d = ((Spec.computeIfAbsent initial f key g).mapCalls .key).map .value
  | computeIfPresent key g =>
    d = ((Spec.computeIfPresent initial f key g).mapCalls .entry).map .value
  | compute key g => d = ((Spec.compute f key g).mapCalls .entry).map .value
  | eraseWhere selects => ∃ order, Support initial f order ∧
    d = ((Spec.eraseWhere initial order selects).mapCalls .entry).map .flag
  | forEach g => ∃ order, Support initial f order ∧
    d = ((Call.forEach (fun e => g e.1 e.2) f order).mapCalls .entry).map fun _ => .nothing
  | clear => d = .done (fun _ => initial) .nothing
  | compact => d = .done f .nothing

end Operation

end LinearProbing.Tally
