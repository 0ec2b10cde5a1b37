import LinearProbing.Disposal
import LinearProbing.Proofs.Tracks

/-!
# LinearProbing.Proofs.CacheCalls

**What calls on caches do.** A cache runs functions of its owner: one that makes the value of a key, one that
disposes of a value that the cache lets go, and one that entries are shown to. They are recorded as
`CacheInvocation`s, so that what is handed over is compared like every other call of a function of the owner.

A cache has nothing that its specification does not know: a call on it *mirrors* the specified one if it
gives the same result, runs the same functions with the same arguments, reports the same events and
leaves related states. This goes through a whole run (`forall₂_mirrors`).
-/

namespace LinearProbing

/-- The result of an operation on a cache with entries listed as `ε` and values `ν`. -/
inductive CacheAnswer (ε ν : Type) where
  | nothing
  | flag (yes : Bool)
  | count (n : Nat)
  | value? (v : Option ν)
  | listed (entries : List ε)

/-- A function of the owner of a cache, with its argument. -/
inductive CacheInvocation (κ ν : Type) where
  /-- The value of a key is made. -/
  | makes (key : κ)
  /-- A value is disposed of. -/
  | disposes (value : ν)
  /-- An entry is shown; the cache keeps it. -/
  | shows (key : κ) (value : ν)
  deriving DecidableEq

/-- The value that a function of the owner made, if it made one. -/
def Reply.made? {ν : Type} : Reply (Option ν) → Option ν
  | answers value? => value?
  | panics => none

namespace CacheInvocation

variable {κ ν : Type}

/-- The value that was made, if a function of the owner was asked for one. -/
def made? (f : κ → Reply (Option ν)) : CacheInvocation κ ν → Option ν
  | makes key => (f key).made?
  | disposes _ | shows .. => none

/-- The value that was handed over, if one was. -/
def disposed? : CacheInvocation κ ν → Option ν
  | makes _ | shows .. => none
  | disposes value => some value

end CacheInvocation

/-- The values that a call handed to the callback that disposes of them, in order. -/
def Call.disposed {τ κ ν α : Type} (c : Call τ (CacheInvocation κ ν) α) : List ν :=
  c.calls.filterMap CacheInvocation.disposed?

variable {τ υ γ ω α : Type} {R : τ → υ → Prop}

/-- Two calls end alike, run the same functions of the caller, report the same and leave related
states. -/
structure Call.Mirrors (R : τ → υ → Prop) (c : Call τ γ α) (d : Call υ γ α) : Prop
    extends toAgreement : c.Agrees R d where
  events : c.events = d.events

theorem Call.Mirrors.of_ok {c : Call τ γ α} {d : Call υ γ α} {value : α} (hc : c.result = .ok value)
    (hd : d.result = .ok value) (hstate : R c.state d.state) (hcalls : c.calls = d.calls)
    (hevents : c.events = d.events) : c.Mirrors R d :=
  ⟨⟨.of_ok hc hd hstate, hcalls⟩, hevents⟩

theorem Call.Mirrors.done {s : τ} {m : υ} {a b : α} (h : R s m) (hresult : a = b) :
    (Call.done s a : Call τ γ α).Mirrors R (.done m b) :=
  hresult ▸ ⟨.done h a, rfl⟩

theorem Call.Mirrors.map {β : Type} {c : Call τ γ α} {d : Call υ γ α} (h : c.Mirrors R d) (f : α → β) :
    (c.map f).Mirrors R (d.map f) :=
  ⟨h.toAgreement.map f, h.events⟩

theorem Call.Mirrors.mapCalls {δ : Type} {c : Call τ γ α} {d : Call υ γ α} (h : c.Mirrors R d)
    (f : γ → δ) : (c.mapCalls f).Mirrors R (d.mapCalls f) :=
  ⟨h.toAgreement.mapCalls f, h.events⟩

/-- Both show the members of a list to a function. -/
theorem Call.Mirrors.forEach {β : Type} {s : τ} {m : υ} (h : R s m) (f : β → Reply Unit) (l : List β) :
    (Call.forEach f s l).Mirrors R (.forEach f m l) :=
  ⟨.forEach h f l, (Call.events_forEach f s l).trans (Call.events_forEach f m l).symm⟩

/-- **A run mirrors the specified run** if each single operation does. -/
theorem forall₂_mirrors {perform : ω → τ → Call τ γ α} {specify : ω → υ → Call υ γ α}
    (hstep : ∀ op {s m}, R s m → (perform op s).Mirrors R (specify op m)) (ops : List ω) {s : τ} {m : υ}
    (h : R s m) :
    List.Forall₂ (Call.Mirrors R) (trace perform ops s) (trace specify ops m) ∧
      R (finalState perform ops s) (finalState specify ops m) := by
  induction ops generalizing s m with
  | nil => exact ⟨.nil, h⟩
  | cons op rest ih =>
      have hfirst := hstep op h
      obtain ⟨hall, hfinal⟩ := ih hfirst.state
      exact ⟨.cons hfirst hall, hfinal⟩

end LinearProbing
