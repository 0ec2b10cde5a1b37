import LinearProbing.WordMap
import LinearProbing.Proofs.FiniteMap
import LinearProbing.Proofs.Operation
import LinearProbing.Proofs.Sweep

/-!
# LinearProbing.Proofs.WordMap.Operation

**The operations of a map of words, and what they are to do.** `Operation.perform` runs an operation on a
map; `Operation.specify` says what it does to a plain finite map, in which reading an absent key gives the
missing value, and where a computed missing value deletes an entry or inserts none (`Spec`).

Operations that go through all entries may do so in any order: `Operation.Allows` leaves the order open.
-/

namespace LinearProbing

namespace WordMap

variable {κ ν : Type}

/-- An operation on a map of words. -/
inductive Operation (κ ν : Type) where
  | get (key : κ)
  | getD (key : κ) (default : ν)
  | get? (key : κ)
  | contains (key : κ)
  | containsValue (value : ν)
  | len
  | insert (key : κ) (value : ν)
  | insertIfAbsent (key : κ) (value : ν)
  | replace (key : κ) (value : ν)
  | replaceIf (key : κ) (old new : ν)
  | insertAll (other : WordMap κ ν)
  | erase (key : κ)
  | erase? (key : κ)
  | eraseIfValue (key : κ) (value : ν)
  | eraseWhere (selects : κ → ν → Reply Bool)
  | retain (keeps : κ → ν → Reply Bool)
  | forEach (f : κ → ν → Reply Unit)
  | clear
  | compact
  | computeIfAbsent (key : κ) (f : κ → Reply ν)
  | computeIfPresent (key : κ) (f : κ → ν → Reply ν)
  | compute (key : κ) (f : κ → ν → Reply ν)
  | merge (key : κ) (value : ν) (f : ν → ν → Reply ν)
  | cursor (script : List (CursorAction ν))

abbrev OperationCall (τ κ ν : Type) : Type :=
  Call τ (Invocation κ (κ × ν) ν) (Answer (κ × ν) ν)

variable [SignedWord κ] [SignedWord ν]

/-! ### Finite maps with a missing value -/

namespace Spec

variable (missing : ν) (m : FiniteMap κ ν)

/-- The value under a key, or the missing one. -/
def read (key : κ) : ν := (m.get? key).getD missing

/-- The map with a computed value under a key, which is deleted when the value is the missing one. -/
def update (key : κ) (value : ν) : FiniteMap κ ν :=
  if value = missing then m.erase key else m.insert key value

/-- The refusal to store the missing value. -/
abbrev refusal : TableError := .missingValue (wordText missing)

/-- Goes on only with a value that is not the missing one. -/
def checked {α : Type} (value : ν) (next : Change (FiniteMap κ ν) α) : Change (FiniteMap κ ν) α :=
  if value = missing then .fail m (.refused (refusal missing)) else next

/-- Stores a value; the result is the former value. -/
def insert (key : κ) (value : ν) : Change (FiniteMap κ ν) ν :=
  checked missing m value (.done (m.insert key value) (read missing m key))

/-- Stores a value under an absent key; the result is the value that was there. -/
def insertIfAbsent (key : κ) (value : ν) : Change (FiniteMap κ ν) ν :=
  checked missing m value <|
    match m.get? key with
    | some old => .done m old
    | none => .done (m.insert key value) missing

/-- Overwrites the value of a present key; the result is the former value. -/
def replace (key : κ) (value : ν) : Change (FiniteMap κ ν) ν :=
  checked missing m value <|
    match m.get? key with
    | some old => .done (m.insert key value) old
    | none => .done m missing

/-- Overwrites the value of a key if it is `old`; says whether it was. -/
def replaceIf (key : κ) (old new : ν) : Change (FiniteMap κ ν) Bool :=
  checked missing m new <|
    if m.get? key = some old then .done (m.insert key new) true else .done m false

/-- Stores the entries of a list, unless one of them has the missing value. -/
def insertAll (entries : List (κ × ν)) : Change (FiniteMap κ ν) Unit :=
  if missing ∈ entries.map Prod.snd then .fail m (.refused (refusal missing))
  else .done (entries.foldl (fun m e => m.insert e.1 e.2) m) ()

/-- The value of a key, or a computed one. -/
def computeIfAbsent (key : κ) (f : κ → Reply ν) : Call (FiniteMap κ ν) κ ν :=
  match m.get? key with
  | some old => .done m old
  | none => .run key (f key) m fun value => .done (update missing m key value) value

/-- Computes a new value for a present key. -/
def computeIfPresent (key : κ) (f : κ → ν → Reply ν) : Call (FiniteMap κ ν) (κ × ν) ν :=
  match m.get? key with
  | some old => .run (key, old) (f key old) m fun value => .done (update missing m key value) value
  | none => .done m missing

/-- Computes a new value from the current one. -/
def compute (key : κ) (f : κ → ν → Reply ν) : Call (FiniteMap κ ν) (κ × ν) ν :=
  .run (key, read missing m key) (f key (read missing m key)) m fun value =>
    .done (update missing m key value) value

/-- Stores a value under an absent key, or combines the current value with it. -/
def merge (key : κ) (value : ν) (f : ν → ν → Reply ν) : Call (FiniteMap κ ν) (ν × ν) ν :=
  if value = missing then .fail m (.refused (refusal missing))
  else
    match m.get? key with
    | some old =>
      .run (old, value) (f old value) m fun combined => .done (update missing m key combined) combined
    | none => .done (m.insert key value) value

omit [SignedWord κ] [SignedWord ν] in
/-- Removes the entries that a predicate selects, going through them in some order. -/
def eraseWhere (order : List (κ × ν)) (selects : κ → ν → Reply Bool) :
    Call (FiniteMap κ ν) (κ × ν) Bool :=
  (sift (fun e => selects e.1 e.2) order false).within FiniteMap.mk

omit [SignedWord κ] [SignedWord ν] in
/-- Removes the entries that a predicate does not keep. -/
def retain (order : List (κ × ν)) (keeps : κ → ν → Reply Bool) :
    Call (FiniteMap κ ν) (κ × ν) Unit :=
  (eraseWhere order fun key value => (keeps key value).map not).map fun _ => ()

/-- What writing through a cursor does to an entry. -/
def writes (value : ν) : Except TableError (κ × ν → Option (κ × ν)) :=
  if value = missing then .error (refusal missing) else .ok fun e => some (e.1, value)

/-- A cursor that goes through the entries in some order. -/
def walk (order : List (κ × ν)) : Walk (κ × ν) ν := { writes := writes missing, ahead := order }

end Spec

/-! ### Operations -/

namespace Operation

def perform : Operation κ ν → WordMap κ ν → OperationCall (WordMap κ ν) κ ν
  | get key, m => .searching [m.locate key] m (.done m (.value (m.get key)))
  | getD key default, m => .searching [m.locate key] m (.done m (.value (m.getD key default)))
  | get? key, m => .searching [m.locate key] m (.done m (.value? (m.get? key)))
  | contains key, m => .searching [m.locate key] m (.done m (.flag (m.contains key)))
  | containsValue value, m => .done m (.flag (m.containsValue value))
  | len, m => .done m (.count m.len)
  | insert key value, m => .quiet ((m.insert key value).map .value)
  | insertIfAbsent key value, m => .quiet ((m.insertIfAbsent key value).map .value)
  | replace key value, m => .quiet ((m.replace key value).map .value)
  | replaceIf key old new, m => .quiet ((m.replaceIf key old new).map .flag)
  | insertAll other, m => .quiet ((m.insertAll other).map fun _ => .nothing)
  | erase key, m => .searching [m.locate key] m (.done (m.erase key).2 (.value (m.erase key).1))
  | erase? key, m => .searching [m.locate key] m (.done (m.erase? key).2 (.value? (m.erase? key).1))
  | eraseIfValue key value, m =>
    .searching [m.locate key] m (.done (m.eraseIfValue key value).2 (.flag (m.eraseIfValue key value).1))
  | eraseWhere selects, m => ((m.eraseWhere selects).mapCalls .entry).map .flag
  | retain keeps, m => ((m.retain keeps).mapCalls .entry).map fun _ => .nothing
  | forEach f, m => ((m.forEach f).mapCalls .entry).map fun _ => .nothing
  | clear, m => .done m.clear .nothing
  | compact, m => .quiet (m.compact.map fun _ => .nothing)
  | computeIfAbsent key f, m => ((m.computeIfAbsent key f).mapCalls .key).map .value
  | computeIfPresent key f, m => ((m.computeIfPresent key f).mapCalls .entry).map .value
  | compute key f, m => ((m.compute key f).mapCalls .entry).map .value
  | merge key value f, m => ((m.merge key value f).mapCalls fun v => .values v.1 v.2).map .value
  | cursor script, m =>
    let answered := CursorInterface.runScript script m.openCursor
    .done answered.2.map (.script answered.1)

/-- What an operation is to do to a finite map whose missing value is `missing`. The entries in some order
are given for the operations that go through them. -/
def specify (missing : ν) (order : List (κ × ν)) :
    Operation κ ν → FiniteMap κ ν → OperationCall (FiniteMap κ ν) κ ν
  | get key, m => .done m (.value (Spec.read missing m key))
  | getD key default, m => .done m (.value (Spec.read default m key))
  | get? key, m => .done m (.value? (m.get? key))
  | contains key, m => .done m (.flag (m.contains key))
  | containsValue value, m => .done m (.flag ((m.entries.map Prod.snd).contains value))
  | len, m => .done m (.count m.size)
  | insert key value, m => .quiet ((Spec.insert missing m key value).map .value)
  | insertIfAbsent key value, m => .quiet ((Spec.insertIfAbsent missing m key value).map .value)
  | replace key value, m => .quiet ((Spec.replace missing m key value).map .value)
  | replaceIf key old new, m => .quiet ((Spec.replaceIf missing m key old new).map .flag)
  | insertAll other, m => .quiet ((Spec.insertAll missing m other.entries).map fun _ => .nothing)
  | erase key, m => .done (m.erase key) (.value (Spec.read missing m key))
  | erase? key, m => .done (m.erase key) (.value? (m.get? key))
  | eraseIfValue key value, m =>
    if m.get? key = some value then .done (m.erase key) (.flag true) else .done m (.flag false)
  | eraseWhere selects, _ => ((Spec.eraseWhere order selects).mapCalls .entry).map .flag
  | retain keeps, _ => ((Spec.retain order keeps).mapCalls .entry).map fun _ => .nothing
  | forEach f, m => ((Call.forEach (fun e => f e.1 e.2) m order).mapCalls .entry).map fun _ => .nothing
  | clear, _ => .done {} .nothing
  | compact, m => .done m .nothing
  | computeIfAbsent key f, m => ((Spec.computeIfAbsent missing m key f).mapCalls .key).map .value
  | computeIfPresent key f, m => ((Spec.computeIfPresent missing m key f).mapCalls .entry).map .value
  | compute key f, m => ((Spec.compute missing m key f).mapCalls .entry).map .value
  | merge key value f, m =>
    ((Spec.merge missing m key value f).mapCalls fun v => .values v.1 v.2).map .value
  | cursor script, _ =>
    let answered := CursorInterface.runScript script (Spec.walk missing order)
    .done ⟨answered.2.contents⟩ (.script answered.1)

/-- What an operation may do to a finite map: it goes through the entries in any order. -/
def Allows (missing : ν) (op : Operation κ ν) (m : FiniteMap κ ν)
    (d : OperationCall (FiniteMap κ ν) κ ν) : Prop :=
  ∃ order, order.Perm m.entries ∧ d = op.specify missing order m

end Operation

end WordMap

end LinearProbing
