import LinearProbing.Error

/-!
# LinearProbing.Outcome

**How calls end.** Functions given by a caller may panic (`Reply`), and so may growth. A call that
ends without a result still leaves its container in some state, which later calls see; so an operation
that can end this way says both how it ended and what it left (`Change`), and an operation that runs
functions of the caller also says with which arguments (`Call`).
-/

namespace LinearProbing

/-- What a function given by a caller does. -/
inductive Reply (α : Type) where
  | answers (value : α)
  | panics

/-- The same reply with its value read through a function. -/
def Reply.map {α β : Type} (f : α → β) : Reply α → Reply β
  | answers value => answers (f value)
  | panics => panics

/-- Why a call ended without a result. -/
inductive Failure where
  | refused (error : TableError)
  | panicked
  /-- No capacity is large enough: the table would have to grow beyond the largest one, or a compaction
  looks for one beyond the range of sizes. The latter is an overflow of machine arithmetic; where overflows
  are not caught, the capacity becomes zero instead, and the search for a greater one never ends. -/
  | capacityOverflow
  /-- The search for a slot never ends, as every slot is taken by another key. -/
  | endlessSearch
  deriving DecidableEq

/-- Why a table was moved to another number of slots. -/
inductive RehashReason where
  | grow
  | compact
  deriving DecidableEq

/-- What a container reports while it works. -/
inductive Event where
  /-- A table of `len` entries moved from one number of slots to another. -/
  | rehashed (reason : RehashReason) (oldCapacity newCapacity len : Nat)
  /-- The oldest entry of a set of a cache made room for a new one. -/
  | evicted (set : Nat)
  /-- A cache that held `len` entries was cleared. -/
  | cacheCleared (len : Nat)
  /-- The least recently used entry was closed; given by the text of its key. -/
  | entryClosed (key : String)
  deriving DecidableEq

/-- How much an event matters to someone who watches. -/
inductive Level where
  | trace
  | debug
  deriving DecidableEq

def RehashReason.name : RehashReason → String
  | grow => "grow"
  | compact => "compact"

def Level.name : Level → String
  | trace => "TRACE"
  | debug => "DEBUG"

/-- What an event says about itself under one name. -/
inductive EventField where
  | number (value : Nat)
  | text (value : String)
  deriving DecidableEq

namespace Event

/-- The level at which an event is reported. -/
def level : Event → Level
  | rehashed .. | cacheCleared _ => .debug
  | evicted _ | entryClosed _ => .trace

def message : Event → String
  | rehashed .. => "probe table rehashed"
  | evicted _ => "cache entry evicted"
  | cacheCleared _ => "set associative cache cleared"
  | entryClosed _ => "lru entry closed"

/-- The fields of an event, by name. -/
def fields : Event → List (String × EventField)
  | rehashed reason oldCapacity newCapacity len =>
    [("reason", .text reason.name), ("from", .number oldCapacity), ("to", .number newCapacity),
      ("len", .number len)]
  | evicted set => [("set", .number set)]
  | cacheCleared len => [("len", .number len)]
  | entryClosed key => [("key", .text key)]

end Event

/-! ### Changes -/

/-- How a call on a container ended, what it left and what was reported meanwhile. -/
structure Change (τ α : Type) where
  /-- The result, or why there is none. -/
  result : Except Failure α
  state : τ
  events : List Event := []

namespace Change

variable {τ υ α β : Type}

def done (state : τ) (value : α) : Change τ α := { result := .ok value, state }

def fail (state : τ) (failure : Failure) : Change τ α := { result := .error failure, state }

/-- The same call with its result read through a function. -/
@[inline]
def map (f : α → β) (c : Change τ α) : Change τ β := { c with result := c.result.map f }

/-- The same call seen from a container around the one that it changed. -/
@[inline]
def within (f : τ → υ) (c : Change τ α) : Change υ α := { c with state := f c.state }

/-- A second call after the first, unless the first ended without a result. -/
@[inline]
def andThen (c : Change τ α) (next : τ → α → Change τ β) : Change τ β :=
  match c.result with
  | .error failure => { result := .error failure, state := c.state, events := c.events }
  | .ok value =>
    let d := next c.state value
    { d with events := c.events ++ d.events }

/-- One call for each member of a list, until one ends without a result. -/
def forEach (step : τ → β → Change τ α) : List β → τ → Change τ Unit
  | [], state => done state ()
  | x :: rest, state => (step state x).andThen fun state _ => forEach step rest state

end Change

/-! ### Calls that run functions of the caller -/

/-- A change, with the arguments of the functions of the caller that were run. -/
structure Call (τ γ α : Type) extends Change τ α where
  /-- The arguments of the caller's functions, in order of the calls; a call that panicked is
  included. -/
  calls : List γ := []

namespace Call

variable {τ υ γ δ α β : Type}

/-- A change that ran no function of the caller. -/
def quiet (c : Change τ α) : Call τ γ α := { toChange := c }

def done (state : τ) (value : α) : Call τ γ α := quiet (.done state value)

def fail (state : τ) (failure : Failure) : Call τ γ α := quiet (.fail state failure)

/-- The same call with its result read through a function. -/
@[inline]
def map (f : α → β) (c : Call τ γ α) : Call τ γ β := { c with toChange := c.toChange.map f }

/-- The same call seen from a container around the one that it changed. -/
@[inline]
def within (f : τ → υ) (c : Call τ γ α) : Call υ γ α := { c with toChange := c.toChange.within f }

/-- The same call with the arguments of the caller's functions read through a function. -/
def mapCalls (f : γ → δ) (c : Call τ γ α) : Call τ δ α :=
  { toChange := c.toChange, calls := c.calls.map f }

/-- Records a call of a function of the caller before all others. -/
def after (arguments : γ) (c : Call τ γ α) : Call τ γ α :=
  { c with calls := arguments :: c.calls }

/-- One call of a function of the caller for each member of a list, until one panics. The state is left
alone. -/
def forEach (f : β → Reply Unit) (state : τ) : List β → Call τ β Unit
  | [] => done state ()
  | x :: rest =>
    match f x with
    | .panics => after x (fail state .panicked)
    | .answers () => after x (forEach f state rest)

/-- Runs a function of the caller: its panic ends the call and leaves `broken`, its value is passed
on. -/
@[inline]
def run (arguments : γ) (reply : Reply β) (broken : τ) (next : β → Change τ α) : Call τ γ α :=
  match reply with
  | .panics => { toChange := .fail broken .panicked, calls := [arguments] }
  | .answers value => { toChange := next value, calls := [arguments] }

end Call

end LinearProbing
