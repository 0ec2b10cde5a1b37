import LinearProbing.Proofs.AssociativeCache.FifoSets

/-!
# LinearProbing.Proofs.AssociativeCache.Operation

**The operations of a set-associative cache.** Each is performed on a cache and specified on the lists of
its sets. A value that is made for a key is made before anything is disposed of.
-/

namespace LinearProbing

namespace DisposingCall

variable {τ κ ν α : Type}

/-- A call with the functions that it runs, in their order: a value is made, then another one is disposed
of. -/
def makingFirst (c : DisposingCall τ κ ν α) : Call τ (CacheInvocation κ ν) α where
  toChange := c.toChange
  calls := c.calls.map .makes ++ c.disposed.map .disposes

end DisposingCall

namespace AssociativeCache

variable {κ ν : Type}

/-- The operations of a cache, with their arguments. -/
inductive Operation (κ ν : Type) where
  | get (key : κ)
  | contains (key : κ)
  | containsValue (value : ν)
  | insert (key : κ) (value : ν)
  | computeIfAbsent (key : κ) (f : κ → Reply (Option ν))
  | erase (key : κ)
  | clear
  | resetCounters
  | entries
  | forEach (f : κ → ν → Reply Unit)
  | len

namespace Operation

/-- The key that an operation is on. -/
def key? : Operation κ ν → Option κ
  | get key | contains key | insert key _ | computeIfAbsent key _ | erase key => some key
  | containsValue _ | clear | resetCounters | entries | forEach _ | len => none

variable [SignedWord κ] [BEq ν]

/-- What an operation does to a cache. -/
def perform (op : Operation κ ν) (c : AssociativeCache κ ν) :
    Call (AssociativeCache κ ν) (CacheInvocation κ ν) (CacheAnswer (κ × ν) ν) :=
  match op with
  | get key => .done (c.get key).2 (.value? (c.get key).1)
  | contains key => .done c (.flag (c.contains key))
  | containsValue value => .done c (.flag (c.containsValue value))
  | insert key value =>
    (DisposingCall.ofDisposal (c.insert key value)).makingFirst.map fun _ => .nothing
  | computeIfAbsent key f => (c.computeIfAbsent key f).makingFirst.map .value?
  | erase key => .done (c.erase key).2 (.value? (c.erase key).1)
  | clear => (DisposingCall.ofDisposal c.clear).makingFirst.map fun _ => .nothing
  | resetCounters => .done c.resetCounters .nothing
  | entries => .done c (.listed c.entries)
  | forEach f => ((c.forEach f).mapCalls fun e => .shows e.1 e.2).map fun _ => .nothing
  | len => .done c (.count c.len)

/-- What an operation is meant to do to the sets. -/
def specify (op : Operation κ ν) (m : FifoSets κ ν) :
    Call (FifoSets κ ν) (CacheInvocation κ ν) (CacheAnswer (κ × ν) ν) :=
  match op with
  | get key => .done (m.get key).2 (.value? (m.get key).1)
  | contains key => .done m (.flag (m.get? key).isSome)
  | containsValue value => .done m (.flag (m.entries.any (·.2 == value)))
  | insert key value =>
    (DisposingCall.ofDisposal (m.insert key value)).makingFirst.map fun _ => .nothing
  | computeIfAbsent key f => (m.computeIfAbsent key f).makingFirst.map .value?
  | erase key => .done (m.erase key).2 (.value? (m.erase key).1)
  | clear => (DisposingCall.ofDisposal m.clear).makingFirst.map fun _ => .nothing
  | resetCounters => .done { m with hits := 0, misses := 0, puts := 0 } .nothing
  | entries => .done m (.listed m.entries)
  | forEach f =>
    ((Call.forEach (fun e => f e.1 e.2) m m.entries).mapCalls fun e => .shows e.1 e.2).map fun _ => .nothing
  | len => .done m (.count m.size)

end Operation

end AssociativeCache

end LinearProbing
