import LinearProbing.RecencyCache
import LinearProbing.Proofs.CacheCalls

/-!
# LinearProbing.Proofs.RecencyCache.Operation

**The operations of a cache of recently used values, and what they are to do** to a list of at most so many
keys with their values, the most recently used key first (`RecencyList`). How the list is kept, and that an
index finds its nodes, does not show there.
-/

namespace LinearProbing

/-- Keys with their values, the most recently used key first; no more than `capacity` of them. -/
structure RecencyList (κ ν : Type) where
  capacity : Nat
  entries : List (κ × ν) := []
  deriving DecidableEq

namespace RecencyList

variable {κ ν : Type}

def keys (m : RecencyList κ ν) : List κ := m.entries.map Prod.fst

/-- A new entry at the front. -/
def push (m : RecencyList κ ν) (key : κ) (value : ν) : RecencyList κ ν :=
  { m with entries := (key, value) :: m.entries }

/-- The last entry of a full list makes room, and its value is closed. -/
def makeRoom (m : RecencyList κ ν) : Disposal (RecencyList κ ν) ν :=
  if m.entries.length = m.capacity then
    { state := { m with entries := m.entries.dropLast }
      disposed := (m.entries.getLast?.map Prod.snd).toList }
  else { state := m }

variable [DecidableEq κ]

def get? (m : RecencyList κ ν) (key : κ) : Option ν :=
  (m.entries.find? (·.1 = key)).map Prod.snd

/-- The list without a key. -/
def without (m : RecencyList κ ν) (key : κ) : RecencyList κ ν :=
  { m with entries := m.entries.filter (·.1 ≠ key) }

/-- A key that is in the list comes to the front, and its value is the result. For any other key, room is
made first; then the factory runs, and the value that it builds comes to the front. -/
def lookup (m : RecencyList κ ν) (key : κ) (factory : κ → Reply ν) :
    DisposingCall (RecencyList κ ν) κ ν (Option ν) :=
  match m.get? key with
  | some value => { toCall := .done ((m.without key).push key value) (some value) }
  | none =>
    { toCall := .run key (factory key) m.makeRoom.state fun value =>
        .done (m.makeRoom.state.push key value) (some value)
      disposed := m.makeRoom.disposed }

end RecencyList

namespace DisposingCall

variable {τ κ ν α : Type}

/-- A call with the functions that it runs, in their order: values are disposed of, then one is made. -/
def disposingFirst (c : DisposingCall τ κ ν α) : Call τ (CacheInvocation κ ν) α where
  toChange := c.toChange
  calls := c.disposed.map .disposes ++ c.calls.map .makes

end DisposingCall

namespace RecencyCache

variable {κ ν θ : Type} {ρ : Type → Type}

/-- An operation on a cache of recently used values. -/
inductive Operation (κ ν : Type) where
  | lookup (key : κ) (factory : κ → Reply ν)
  | contains (key : κ)
  | keys
  | len
  | close

abbrev OperationCall (τ κ ν : Type) : Type := Call τ (CacheInvocation κ ν) (CacheAnswer κ ν)

namespace Operation

variable [SignedWord κ]

/-- What an operation does to a cache. -/
def perform [HandleStore ρ θ] :
    Operation κ ν → RecencyCache κ ν ρ θ → OperationCall (RecencyCache κ ν ρ θ) κ ν
  | lookup key factory, c => (c.lookup key factory).disposingFirst.map .value?
  | contains key, c => .done c (.flag (c.contains key))
  | keys, c => .done c (.listed c.keys)
  | len, c => .done c (.count c.len)
  | close, c => (DisposingCall.ofDisposal c.close).disposingFirst.map fun _ => .nothing

/-- What an operation is to do to the list. The entries in some order are given for `close`. -/
def specify (order : List (κ × ν)) :
    Operation κ ν → RecencyList κ ν → OperationCall (RecencyList κ ν) κ ν
  | lookup key factory, m => (m.lookup key factory).disposingFirst.map .value?
  | contains key, m => .done m (.flag (m.get? key).isSome)
  | keys, m => .done m (.listed m.keys)
  | len, m => .done m (.count m.entries.length)
  | close, m =>
    { result := .ok .nothing, state := { m with entries := [] }
      calls := order.map fun e => .disposes e.2 }

/-- What an operation may do to the list: values are closed in any order. -/
def Allows (op : Operation κ ν) (m : RecencyList κ ν) (d : OperationCall (RecencyList κ ν) κ ν) :
    Prop :=
  ∃ order, order.Perm m.entries ∧ d = op.specify order m

end Operation

end RecencyCache

end LinearProbing
