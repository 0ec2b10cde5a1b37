import LinearProbing.Cursor
import LinearProbing.Outcome
import LinearProbing.Slots

/-!
# LinearProbing.Proofs.Operation

**What operations give and what they run.** The operations of a container have results of many types, and
run functions of the caller with arguments of many types. So that a run is a list of calls of one type,
results are read as `Answer`s and arguments as `Invocation`s.

Functions of the containers that give no failure of their own look for a key with `Table.find?`, which
finds nothing where the search never ends. The operations that call them say so (`Call.searching`).
-/

namespace LinearProbing

/-- The result of an operation on a container of entries `ε` with values `ν`. -/
inductive Answer (ε ν : Type) where
  | nothing
  | flag (yes : Bool)
  | count (n : Nat)
  | value (v : ν)
  | value? (v : Option ν)
  | found (e : Option ε)
  | script (answers : List (CursorAnswer ε))

/-- The arguments of a function of the caller. -/
inductive Invocation (κ ε ν : Type) where
  /-- It computes a value for a key. -/
  | key (k : κ)
  /-- It computes a value from an entry, or decides on one. -/
  | entry (e : ε)
  /-- It combines the former value with a new one. -/
  | values (old new : ν)

/-! ### Searches that never end -/

namespace Call

variable {τ υ γ δ α β : Type} {probes : List Probe} {s s' : τ} {c : Call τ γ α}

/-- A call that makes some searches on a state: if one of them never ends, neither does the call. A container
that an operation is given besides is taken to be one whose searches end. -/
def searching (probes : List Probe) (s : τ) (c : Call τ γ α) : Call τ γ α :=
  if .endless ∈ probes then .fail s .endlessSearch else c

theorem searching_of_mem (h : .endless ∈ probes) (s : τ) (c : Call τ γ α) :
    searching probes s c = .fail s .endlessSearch := if_pos h

/-- Searches that end do not show. -/
theorem searching_of_notMem (h : .endless ∉ probes) (s : τ) (c : Call τ γ α) :
    searching probes s c = c := if_neg h

/-- What holds of the state where a search never ends, and of what the call leaves, holds of what is left. -/
theorem state_searching {P : τ → Prop} (hs : .endless ∈ probes → P s) (hc : P c.state) :
    P (searching probes s c).state := by
  by_cases hmem : .endless ∈ probes
  · rw [searching_of_mem hmem]
    exact hs hmem
  · rwa [searching_of_notMem hmem]

/-- A call whose result is no failure of its own does not fail to grow a table. -/
theorem searching_result_ne {value : α} :
    (searching probes s (.done s' value : Call τ γ α)).result ≠ .error .capacityOverflow := by
  rw [searching]
  split <;> exact nofun

theorem within_searching (f : τ → υ) : (searching probes s c).within f = searching probes (f s) (c.within f) :=
  apply_ite (Call.within f) _ _ _

end Call

end LinearProbing
