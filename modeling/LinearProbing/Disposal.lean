import LinearProbing.Outcome

/-!
# LinearProbing.Disposal

**Values that a cache lets go.** A cache owns its values: one that it displaces is handed to a callback of
its owner, which disposes of it. What an operation hands over is part of what it did.
-/

namespace LinearProbing

/-- What a call on a cache left, and which values it handed over. -/
structure Disposal (τ ν : Type) where
  state : τ
  disposed : List ν := []
  events : List Event := []

/-- A call that may run a function of the caller, and the values that it handed over. -/
structure DisposingCall (τ γ ν α : Type) extends Call τ γ α where
  disposed : List ν := []

namespace DisposingCall

variable {τ γ ν : Type}

/-- A call that runs no function of the caller. -/
def ofDisposal (d : Disposal τ ν) : DisposingCall τ γ ν Unit :=
  { result := .ok (), state := d.state, events := d.events, disposed := d.disposed }

end DisposingCall

end LinearProbing
