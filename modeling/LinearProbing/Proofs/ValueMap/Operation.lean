import LinearProbing.ValueMap
import LinearProbing.Proofs.FiniteMap
import LinearProbing.Proofs.Operation
import LinearProbing.Proofs.Sweep

/-!
# LinearProbing.Proofs.ValueMap.Operation

**The operations of a map to values that may be null, and what they are to do.** `Operation.perform` runs an
operation on a map; `Operation.specify` says what it does to a plain finite map from keys to optional values
(`Spec`). A null is an entry, but is read as no value, so `Spec.read` gives no value for an absent key and
for a null alike.

When a function of the caller panics while it computes on an entry, the entry is gone.
-/

namespace LinearProbing

namespace ValueMap

variable {σ η κ ν : Type}

/-- An operation on a map to values that may be null. -/
inductive Operation (σ η κ ν : Type) where
  | get? (key : κ)
  | contains (key : κ)
  | containsValue (value : ν)
  | len
  | insert (key : κ) (value : ν)
  | insertNull (key : κ)
  | insertIfAbsent (key : κ) (value : ν)
  | replace (key : κ) (value : ν)
  | replaceIf (key : κ) (old new : ν)
  | modify (key : κ) (f : ν → ν)
  | insertAll (other : ValueMap σ η κ ν)
  | extend (entries : List (κ × ν))
  | erase (key : κ)
  | eraseEntry (key : κ)
  | eraseIfValue (key : κ) (value : ν)
  | eraseWhere (selects : κ → Option ν → Reply Bool)
  | retain (keeps : κ → Option ν → Reply Bool)
  | forEach (f : κ → Option ν → Reply Unit)
  | clear
  | compact
  | copy
  | computeIfAbsent (key : κ) (f : κ → Reply (Option ν))
  | computeIfPresent (key : κ) (f : κ → ν → Reply (Option ν))
  | compute (key : κ) (f : κ → Option ν → Reply (Option ν))
  | merge (key : κ) (value : ν) (f : ν → ν → Reply (Option ν))
  | cursor (script : List (CursorAction ν))

abbrev OperationCall (τ κ ν : Type) : Type :=
  Call τ (Invocation κ (κ × Option ν) ν) (Answer (κ × Option ν) ν)

/-! ### Finite maps with nulls -/

namespace Spec

variable [BEq κ] (m : FiniteMap κ (Option ν))

/-- The value under a key, if there is one that is not null. -/
def read (key : κ) : Option ν := (m.get? key).join

/-- Stores a value or a null; the result is the former value. -/
def store (key : κ) (stored : Option ν) : Change (FiniteMap κ (Option ν)) (Option ν) :=
  .done (m.insert key stored) (read m key)

/-- Stores a null, if the map holds any. -/
def insertNull (policy : NullPolicy) (key : κ) : Change (FiniteMap κ (Option ν)) (Option ν) :=
  match policy with
  | .nonNull => .fail m (.refused .nullValue)
  | .nullable => store m key none

/-- Stores a value under a key that is absent or null; the result is the value that was there. -/
def insertIfAbsent (key : κ) (value : ν) : Change (FiniteMap κ (Option ν)) (Option ν) :=
  match read m key with
  | some old => .done m (some old)
  | none => .done (m.insert key (some value)) none

/-- Overwrites what is stored under a present key. -/
def replace (key : κ) (value : ν) : FiniteMap κ (Option ν) :=
  if m.contains key then m.insert key (some value) else m

/-- Overwrites the value of a key if it is `old`. -/
def replaceIf [BEq ν] (key : κ) (old new : ν) : FiniteMap κ (Option ν) :=
  if read m key == some old then m.insert key (some new) else m

/-- Rewrites the value under a key, if there is one. -/
def modify (key : κ) (f : ν → ν) : FiniteMap κ (Option ν) :=
  match read m key with
  | some old => m.insert key (some (f old))
  | none => m

/-- Removes a key if it has the value. -/
def eraseIfValue [BEq ν] (key : κ) (value : ν) : FiniteMap κ (Option ν) :=
  if read m key == some value then m.erase key else m

omit [BEq κ] in
/-- Removes the entries that a predicate selects, going through them in some order. -/
def eraseWhere (order : List (κ × Option ν)) (selects : κ → Option ν → Reply Bool) :
    Call (FiniteMap κ (Option ν)) (κ × Option ν) Bool :=
  (sift (fun e => selects e.1 e.2) order false).within FiniteMap.mk

omit [BEq κ] in
/-- Removes the entries that a predicate does not keep. -/
def retain (order : List (κ × Option ν)) (keeps : κ → Option ν → Reply Bool) :
    Call (FiniteMap κ (Option ν)) (κ × Option ν) Unit :=
  (eraseWhere order fun key stored => (keeps key stored).map not).map fun _ => ()

/-- Ends a computation: no value deletes the entry, and a value is kept as `keep` says. -/
def settle (key : κ) (keep : ν → FiniteMap κ (Option ν)) :
    Option ν → Change (FiniteMap κ (Option ν)) (Option ν)
  | none => .done (m.erase key) none
  | some value => .done (keep value) (some value)

/-- The value of a key; if it is absent or null, a computed one. -/
def computeIfAbsent (key : κ) (f : κ → Reply (Option ν)) :
    Call (FiniteMap κ (Option ν)) κ (Option ν) :=
  match read m key with
  | some old => .done m (some old)
  | none =>
    .run key (f key) m fun
      | none => .done m none
      | some value => .done (m.insert key (some value)) (some value)

/-- Computes a new value for a key that has one; the key stays as it is stored. -/
def computeIfPresent (key : κ) (f : κ → ν → Reply (Option ν)) :
    Call (FiniteMap κ (Option ν)) (κ × ν) (Option ν) :=
  match m.find? key with
  | some (stored, some old) =>
    .run (stored, old) (f stored old) (m.erase key) (settle m key (m.insert key ∘ some))
  | some (_, none) | none => .done m none

/-- Computes a new value from the current one. -/
def compute (key : κ) (f : κ → Option ν → Reply (Option ν)) :
    Call (FiniteMap κ (Option ν)) (κ × Option ν) (Option ν) :=
  .run (key, read m key) (f key (read m key)) (m.erase key) (settle m key (m.put key ∘ some))

/-- Stores a value under a key that is absent or null, or combines the current value with it. -/
def merge (key : κ) (value : ν) (f : ν → ν → Reply (Option ν)) :
    Call (FiniteMap κ (Option ν)) (ν × ν) (Option ν) :=
  match read m key with
  | some old => .run (old, value) (f old value) (m.erase key) (settle m key (m.put key ∘ some))
  | none => .done (m.put key (some value)) (some value)

omit [BEq κ] in
/-- Writing through a cursor overwrites a value, but not a null. -/
def walk (order : List (κ × Option ν)) : Walk (κ × Option ν) ν where
  writes value := .ok fun e => e.2.map fun _ => (e.1, some value)
  ahead := order

end Spec

/-! ### Operations -/

namespace Operation

variable [BEq κ] [BEq ν]

def perform [EntrySlot σ κ ν] [KeyHash η κ] :
    Operation σ η κ ν → ValueMap σ η κ ν → OperationCall (ValueMap σ η κ ν) κ ν
  | get? key, m => .searching [m.locate key] m (.done m (.value? (m.get? key)))
  | contains key, m => .searching [m.locate key] m (.done m (.flag (m.contains key)))
  | containsValue value, m => .done m (.flag (m.containsValue value))
  | len, m => .done m (.count m.len)
  | insert key value, m => .quiet ((m.insert key value).map .value?)
  | insertNull key, m => .quiet ((m.insertNull key).map .value?)
  | insertIfAbsent key value, m => .quiet ((m.insertIfAbsent key value).map .value?)
  | replace key value, m =>
    .searching [m.locate key] m (.done (m.replace key value).2 (.value? (m.replace key value).1))
  | replaceIf key old new, m =>
    .searching [m.locate key] m (.done (m.replaceIf key old new).2 (.flag (m.replaceIf key old new).1))
  | modify key f, m => .searching [m.locate key] m (.done (m.modify key f).2 (.value? (m.modify key f).1))
  | insertAll other, m => .quiet ((m.insertAll other).map fun _ => .nothing)
  | extend entries, m => .quiet ((m.extend entries).map fun _ => .nothing)
  | erase key, m => .searching [m.locate key] m (.done (m.erase key).2 (.value? (m.erase key).1))
  | eraseEntry key, m =>
    .searching [m.locate key] m (.done (m.eraseEntry key).2 (.found (m.eraseEntry key).1))
  | eraseIfValue key value, m =>
    .searching [m.locate key] m (.done (m.eraseIfValue key value).2 (.flag (m.eraseIfValue key value).1))
  | eraseWhere selects, m => ((m.eraseWhere selects).mapCalls .entry).map .flag
  | retain keeps, m => ((m.retain keeps).mapCalls .entry).map fun _ => .nothing
  | forEach f, m => ((m.forEach f).mapCalls .entry).map fun _ => .nothing
  | clear, m => .done m.clear .nothing
  | compact, m => .quiet (m.compact.map fun _ => .nothing)
  | copy, m => .done m.copy .nothing
  | computeIfAbsent key f, m => ((m.computeIfAbsent key f).mapCalls .key).map .value?
  | computeIfPresent key f, m =>
    ((m.computeIfPresent key f).mapCalls fun e => .entry (e.1, some e.2)).map .value?
  | compute key f, m => ((m.compute key f).mapCalls .entry).map .value?
  | merge key value f, m => ((m.merge key value f).mapCalls fun v => .values v.1 v.2).map .value?
  | cursor script, m =>
    let answered := CursorInterface.runScript script m.openCursor
    .done answered.2.map (.script answered.1)

/-- What an operation is to do to a finite map. The entries in some order are given for the operations that
go through them. -/
def specify [EntrySlot σ κ ν] (policy : NullPolicy) (order : List (κ × Option ν)) :
    Operation σ η κ ν → FiniteMap κ (Option ν) → OperationCall (FiniteMap κ (Option ν)) κ ν
  | get? key, m => .done m (.value? (Spec.read m key))
  | contains key, m => .done m (.flag (m.contains key))
  | containsValue value, m => .done m (.flag (m.entries.any (·.2 == some value)))
  | len, m => .done m (.count m.size)
  | insert key value, m => .quiet ((Spec.store m key (some value)).map .value?)
  | insertNull key, m => .quiet ((Spec.insertNull m policy key).map .value?)
  | insertIfAbsent key value, m => .quiet ((Spec.insertIfAbsent m key value).map .value?)
  | replace key value, m => .done (Spec.replace m key value) (.value? (Spec.read m key))
  | replaceIf key old new, m =>
    .done (Spec.replaceIf m key old new) (.flag (Spec.read m key == some old))
  | modify key f, m => .done (Spec.modify m key f) (.value? ((Spec.read m key).map f))
  | insertAll other, m =>
    .done (other.entries.foldl (fun m e => m.insert e.1 e.2) m) .nothing
  | extend entries, m => .done (entries.foldl (fun m e => m.insert e.1 (some e.2)) m) .nothing
  | erase key, m => .done (m.erase key) (.value? (Spec.read m key))
  | eraseEntry key, m => .done (m.erase key) (.found (m.find? key))
  | eraseIfValue key value, m =>
    .done (Spec.eraseIfValue m key value) (.flag (Spec.read m key == some value))
  | eraseWhere selects, _ => ((Spec.eraseWhere order selects).mapCalls .entry).map .flag
  | retain keeps, _ => ((Spec.retain order keeps).mapCalls .entry).map fun _ => .nothing
  | forEach f, m => ((Call.forEach (fun e => f e.1 e.2) m order).mapCalls .entry).map fun _ => .nothing
  | clear, _ => .done {} .nothing
  | compact, m => .done m .nothing
  | copy, m => .done m .nothing
  | computeIfAbsent key f, m => ((Spec.computeIfAbsent m key f).mapCalls .key).map .value?
  | computeIfPresent key f, m =>
    ((Spec.computeIfPresent m key f).mapCalls fun e => .entry (e.1, some e.2)).map .value?
  | compute key f, m => ((Spec.compute m key f).mapCalls .entry).map .value?
  | merge key value f, m => ((Spec.merge m key value f).mapCalls fun v => .values v.1 v.2).map .value?
  | cursor script, _ =>
    let answered := CursorInterface.runScript script (Spec.walk order)
    .done ⟨answered.2.contents⟩ (.script answered.1)

/-- What an operation may do to a finite map: it goes through the entries in any order. -/
def Allows [EntrySlot σ κ ν] (policy : NullPolicy) (op : Operation σ η κ ν)
    (m : FiniteMap κ (Option ν)) (d : OperationCall (FiniteMap κ (Option ν)) κ ν) : Prop :=
  ∃ order, order.Perm m.entries ∧ d = op.specify policy order m

end Operation

end ValueMap

end LinearProbing
