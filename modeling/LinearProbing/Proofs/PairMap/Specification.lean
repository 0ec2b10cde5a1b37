import LinearProbing.Proofs.PairMap.Operation

/-!
# LinearProbing.Proofs.PairMap.Specification

**What the operations of a map keyed by pairs are to do** to a plain finite map from pairs to values, which
knows nothing of words, nulls or slots. As in the map of words inside, an entry is out of the map while a
function of the caller computes on it, so that it is gone if the function panics.
-/

namespace LinearProbing.PairMap

variable {ν : Type}

namespace Spec

variable (m : FiniteMap (Int32 × Int32) ν)

/-- Stores a value; the result is the former value. -/
def insert (pair : Int32 × Int32) (value : ν) : Change (FiniteMap (Int32 × Int32) ν) (Option ν) :=
  .done (m.insert pair value) (m.get? pair)

/-- Stores a value under an absent pair; the result is the value that was there. -/
def insertIfAbsent (pair : Int32 × Int32) (value : ν) :
    Change (FiniteMap (Int32 × Int32) ν) (Option ν) :=
  match m.get? pair with
  | some old => .done m (some old)
  | none => .done (m.insert pair value) none

/-- Overwrites the value of a present pair. -/
def replace (pair : Int32 × Int32) (value : ν) : FiniteMap (Int32 × Int32) ν :=
  if m.contains pair then m.insert pair value else m

/-- Rewrites the value under a pair, if there is one. -/
def modify (pair : Int32 × Int32) (f : ν → ν) : FiniteMap (Int32 × Int32) ν :=
  match m.get? pair with
  | some old => m.insert pair (f old)
  | none => m

/-- Removes a pair if it has the value. -/
def eraseIfValue [BEq ν] (pair : Int32 × Int32) (value : ν) : FiniteMap (Int32 × Int32) ν :=
  if m.get? pair == some value then m.erase pair else m

/-- Removes the entries that a predicate selects, going through them in some order. -/
def eraseWhere (order : List ((Int32 × Int32) × ν)) (selects : Int32 × Int32 → ν → Reply Bool) :
    Call (FiniteMap (Int32 × Int32) ν) ((Int32 × Int32) × ν) Bool :=
  (sift (fun e => selects e.1 e.2) order false).within FiniteMap.mk

/-- Removes the entries that a predicate does not keep. -/
def retain (order : List ((Int32 × Int32) × ν)) (keeps : Int32 × Int32 → ν → Reply Bool) :
    Call (FiniteMap (Int32 × Int32) ν) ((Int32 × Int32) × ν) Unit :=
  (eraseWhere order fun pair value => (keeps pair value).map not).map fun _ => ()

/-- Ends a computation: no value deletes the entry, and a value is kept as `keep` says. -/
def settle (pair : Int32 × Int32) (keep : ν → FiniteMap (Int32 × Int32) ν) :
    Option ν → Change (FiniteMap (Int32 × Int32) ν) (Option ν)
  | none => .done (m.erase pair) none
  | some value => .done (keep value) (some value)

/-- The value of a pair, or a computed one. -/
def computeIfAbsent (pair : Int32 × Int32) (f : Int32 × Int32 → Reply (Option ν)) :
    Call (FiniteMap (Int32 × Int32) ν) (Int32 × Int32) (Option ν) :=
  match m.get? pair with
  | some old => .done m (some old)
  | none =>
    .run pair (f pair) m fun
      | none => .done m none
      | some value => .done (m.insert pair value) (some value)

/-- Computes a new value for a present pair. -/
def computeIfPresent (pair : Int32 × Int32) (f : Int32 × Int32 → ν → Reply (Option ν)) :
    Call (FiniteMap (Int32 × Int32) ν) ((Int32 × Int32) × ν) (Option ν) :=
  match m.get? pair with
  | some old => .run (pair, old) (f pair old) (m.erase pair) (settle m pair (m.insert pair))
  | none => .done m none

/-- Computes a new value from the current one. -/
def compute (pair : Int32 × Int32) (f : Int32 × Int32 → Option ν → Reply (Option ν)) :
    Call (FiniteMap (Int32 × Int32) ν) ((Int32 × Int32) × Option ν) (Option ν) :=
  .run (pair, m.get? pair) (f pair (m.get? pair)) (m.erase pair) (settle m pair (m.put pair))

/-- Stores a value under an absent pair, or combines the current value with it. -/
def merge (pair : Int32 × Int32) (value : ν) (f : ν → ν → Reply (Option ν)) :
    Call (FiniteMap (Int32 × Int32) ν) (ν × ν) (Option ν) :=
  match m.get? pair with
  | some old => .run (old, value) (f old value) (m.erase pair) (settle m pair (m.put pair))
  | none => .done (m.put pair value) (some value)

end Spec

/-- A call on a plain finite map from pairs to values. -/
abbrev SpecifiedCall (ν : Type) : Type :=
  Call (FiniteMap (Int32 × Int32) ν) (Invocation (Int32 × Int32) ((Int32 × Int32) × Option ν) ν)
    (Answer ((Int32 × Int32) × Option ν) ν)

namespace Operation

/-- The pair that an operation is on. -/
def pair? : Operation ν → Option (Int32 × Int32)
  | get? pair | contains pair | insert pair _ | insertIfAbsent pair _ | replace pair _ | modify pair _
  | erase pair | eraseIfValue pair _ | computeIfAbsent pair _ | computeIfPresent pair _
  | compute pair _ | merge pair _ _ => some pair
  | containsValue _ | len | extend _ | eraseWhere _ | retain _ | forEach _ | clear | compact | copy => none

variable [BEq ν]

/-- What an operation is to do to a plain finite map. The entries in some order are given for the operations
that go through them. -/
def specify (order : List ((Int32 × Int32) × ν)) :
    Operation ν → FiniteMap (Int32 × Int32) ν → SpecifiedCall ν
  | get? pair, m => .done m (.value? (m.get? pair))
  | contains pair, m => .done m (.flag (m.contains pair))
  | containsValue value, m => .done m (.flag (m.entries.any (·.2 == value)))
  | len, m => .done m (.count m.size)
  | insert pair value, m => .quiet ((Spec.insert m pair value).map .value?)
  | insertIfAbsent pair value, m => .quiet ((Spec.insertIfAbsent m pair value).map .value?)
  | extend entries, m => .done (entries.foldl (fun m e => m.insert e.1 e.2) m) .nothing
  | replace pair value, m => .done (Spec.replace m pair value) (.value? (m.get? pair))
  | modify pair f, m => .done (Spec.modify m pair f) (.value? ((m.get? pair).map f))
  | erase pair, m => .done (m.erase pair) (.value? (m.get? pair))
  | eraseIfValue pair value, m =>
    .done (Spec.eraseIfValue m pair value) (.flag (m.get? pair == some value))
  | eraseWhere selects, _ =>
    ((Spec.eraseWhere order selects).mapCalls fun e => .entry (e.1, some e.2)).map .flag
  | retain keeps, _ =>
    ((Spec.retain order keeps).mapCalls fun e => .entry (e.1, some e.2)).map fun _ => .nothing
  | forEach f, m =>
    ((Call.forEach (fun e => f e.1 e.2) m order).mapCalls fun e => .entry (e.1, some e.2)).map
      fun _ => .nothing
  | clear, _ => .done {} .nothing
  | compact, m => .done m .nothing
  | copy, m => .done m .nothing
  | computeIfAbsent pair f, m => ((Spec.computeIfAbsent m pair f).mapCalls .key).map .value?
  | computeIfPresent pair f, m =>
    ((Spec.computeIfPresent m pair f).mapCalls fun e => .entry (e.1, some e.2)).map .value?
  | compute pair f, m => ((Spec.compute m pair f).mapCalls .entry).map .value?
  | merge pair value f, m =>
    ((Spec.merge m pair value f).mapCalls fun v => .values v.1 v.2).map .value?

/-- What an operation may do to a plain finite map: it goes through the entries in any order. -/
def Allows (op : Operation ν) (m : FiniteMap (Int32 × Int32) ν) (d : SpecifiedCall ν) : Prop :=
  ∃ order, order.Perm m.entries ∧ d = op.specify order m

end Operation

end LinearProbing.PairMap
