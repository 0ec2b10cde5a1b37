import LinearProbing.Interface
import LinearProbing.Proofs.Tracks

/-!
# LinearProbing.Proofs.Interface.Operation

**The operations of the two interfaces, and when two runs of them are alike.** A program that knows a map or
a set through `MapInterface` or `SetInterface` only sees results (`Observation`). Two runs look alike to it
if all calls give the same results, where what is visited may come in any order, but each entry once
(`RunsAlike`). As this is symmetric and transitive, containers whose runs look like those of a plain finite
map look like each other.

A map may refuse to hold some values. `MapInterface.Operation.refusing` is a plain finite map that does the
same: it is left as it was, and the result is the refusal.
-/

namespace LinearProbing

/-- What a call through an interface shows, to a program that visits entries `ε` with values `ν`. -/
inductive Observation (ε ν : Type) where
  | nothing
  | flag (yes : Bool)
  | count (n : Nat)
  | value? (v : Option ν)
  | visited (entries : List ε)

abbrev ObservedCall (τ ε ν : Type) : Type := Call τ Empty (Observation ε ν)

variable {τ υ φ ω ε ν : Type} {apart : ε → ε → Prop}

/-! ### What looks alike -/

/-- Observations are the same. What is visited is so in any order, if its members are apart: then nothing
is visited twice. -/
inductive Observation.Same (apart : ε → ε → Prop) : Observation ε ν → Observation ε ν → Prop
  | nothing : Same apart .nothing .nothing
  | flag (yes : Bool) : Same apart (.flag yes) (.flag yes)
  | count (n : Nat) : Same apart (.count n) (.count n)
  | value? (v : Option ν) : Same apart (.value? v) (.value? v)
  | visited {l l' : List ε} (order : l.Perm l') (once : l.Pairwise apart) :
      Same apart (.visited l) (.visited l')

/-- Two calls end alike. -/
inductive EndsAlike (apart : ε → ε → Prop) :
    Except Failure (Observation ε ν) → Except Failure (Observation ε ν) → Prop
  | ok {a b : Observation ε ν} (same : a.Same apart b) : EndsAlike apart (.ok a) (.ok b)
  | error (failure : Failure) : EndsAlike apart (.error failure) (.error failure)

/-- Two runs look alike: so does the end of every call. -/
def RunsAlike (apart : ε → ε → Prop) (calls : List (ObservedCall τ ε ν))
    (calls' : List (ObservedCall υ ε ν)) : Prop :=
  List.Forall₂ (fun c d => EndsAlike apart c.result d.result) calls calls'

theorem Observation.Same.symm (hsymm : ∀ {x y}, apart x y → apart y x) {a b : Observation ε ν}
    (h : a.Same apart b) : b.Same apart a := by
  cases h with
  | nothing => exact .nothing
  | flag yes => exact .flag yes
  | count n => exact .count n
  | value? v => exact .value? v
  | visited order once => exact .visited order.symm ((order.pairwise_iff hsymm).mp once)

theorem Observation.Same.trans {a b c : Observation ε ν} (h : a.Same apart b) (h' : b.Same apart c) :
    a.Same apart c := by
  cases h with
  | visited order once =>
      cases h' with
      | visited order' _ => exact .visited (order.trans order') once
  | _ => exact h'

theorem EndsAlike.symm (hsymm : ∀ {x y}, apart x y → apart y x)
    {result result' : Except Failure (Observation ε ν)} (h : EndsAlike apart result result') :
    EndsAlike apart result' result := by
  cases h with
  | ok same => exact .ok (same.symm hsymm)
  | error failure => exact .error failure

theorem EndsAlike.trans {result result' result'' : Except Failure (Observation ε ν)}
    (h : EndsAlike apart result result') (h' : EndsAlike apart result' result'') :
    EndsAlike apart result result'' := by
  cases h with
  | ok same =>
      cases h' with
      | ok same' => exact .ok (same.trans same')
  | error failure => exact h'

theorem RunsAlike.symm (hsymm : ∀ {x y}, apart x y → apart y x) {calls : List (ObservedCall τ ε ν)}
    {calls' : List (ObservedCall υ ε ν)} (h : RunsAlike apart calls calls') :
    RunsAlike apart calls' calls :=
  List.Forall₂.flip (h.imp fun _ _ hends => hends.symm hsymm)

theorem RunsAlike.trans {calls : List (ObservedCall τ ε ν)} {calls' : List (ObservedCall υ ε ν)}
    {calls'' : List (ObservedCall φ ε ν)} (h : RunsAlike apart calls calls')
    (h' : RunsAlike apart calls' calls'') : RunsAlike apart calls calls'' := by
  induction h generalizing calls'' with
  | nil =>
      cases h'
      exact .nil
  | cons first _ ih =>
      cases h' with
      | cons first' others' => exact .cons (first.trans first') (ih others')

/-- One call resembles another: they end alike and leave related states. -/
structure Call.Resembles (apart : ε → ε → Prop) (R : τ → υ → Prop) (c : ObservedCall τ ε ν)
    (d : ObservedCall υ ε ν) : Prop where
  ends : EndsAlike apart c.result d.result
  state : R c.state d.state

/-- **Runs look alike** if each operation resembles the same one on a related state, unless it fails to grow
a table, which no call of the run does. -/
theorem runsAlike_of_resembles {perform : ω → τ → ObservedCall τ ε ν}
    {perform' : ω → υ → ObservedCall υ ε ν} {R : τ → υ → Prop}
    (hstep : ∀ op {s m}, R s m → (perform op s).result ≠ .error .capacityOverflow →
      (perform op s).Resembles apart R (perform' op m))
    (ops : List ω) {s : τ} {m : υ} (h : R s m) (hno : NoOverflow (trace perform ops s)) :
    RunsAlike apart (trace perform ops s) (trace perform' ops m) ∧
      R (finalState perform ops s) (finalState perform' ops m) := by
  induction ops generalizing s m with
  | nil => exact ⟨.nil, h⟩
  | cons op rest ih =>
      obtain ⟨hserved, hrest⟩ := List.forall_mem_cons.mp hno
      have hfirst := hstep op h hserved
      obtain ⟨hall, hfinal⟩ := ih hfirst.state hrest
      exact ⟨.cons hfirst.ends hall, hfinal⟩

/-! ### Maps -/

namespace MapInterface

/-- An operation on a map that is known through its interface. -/
inductive Operation (κ ν : Type) where
  | len
  | isEmpty
  | contains (key : κ)
  | get? (key : κ)
  | insert (key : κ) (value : ν)
  | erase (key : κ)
  | clear
  | visit

/-- Two entries have different keys. -/
def OtherKey {κ ν : Type} [BEq κ] (a b : κ × ν) : Prop := (a.1 == b.1) = false

variable {μ κ ν : Type}

theorem OtherKey.symm [BEq κ] [EquivBEq κ] {a b : κ × ν} (h : OtherKey a b) : OtherKey b a :=
  BEq.comm.trans h

namespace Operation

def perform [MapInterface μ κ ν] : Operation κ ν → μ → ObservedCall μ (κ × ν) ν
  | len, m => .done m (.count (MapInterface.len m))
  | isEmpty, m => .done m (.flag (MapInterface.isEmpty m))
  | contains key, m => .done m (.flag (MapInterface.contains m key))
  | get? key, m => .done m (.value? (MapInterface.get? m key))
  | insert key value, m => .quiet ((MapInterface.insert m key value).map .value?)
  | erase key, m => .done (MapInterface.erase m key).2 (.value? (MapInterface.erase m key).1)
  | clear, m => .done (MapInterface.clear m) .nothing
  | visit, m => .done m (.visited (MapInterface.visit m))

/-- The value that an operation would store. -/
def stores? : Operation κ ν → Option ν
  | insert _ value => some value
  | _ => none

/-- What an operation does to a finite map that refuses some values: to be told so leaves it unchanged. -/
def refusing [BEq κ] (refusal? : ν → Option TableError) (op : Operation κ ν) (m : FiniteMap κ ν) :
    ObservedCall (FiniteMap κ ν) (κ × ν) ν :=
  match op.stores?.bind refusal? with
  | some error => .fail m (.refused error)
  | none => op.perform m

end Operation

end MapInterface

/-! ### Sets -/

namespace SetInterface

/-- An operation on a set that is known through its interface. -/
inductive Operation (α : Type) where
  | len
  | isEmpty
  | contains (x : α)
  | insert (x : α)
  | erase (x : α)
  | visit

/-- Two members are different. -/
def Other {α : Type} [BEq α] (x y : α) : Prop := (x == y) = false

variable {μ α : Type}

theorem Other.symm [BEq α] [EquivBEq α] {x y : α} (h : Other x y) : Other y x := BEq.comm.trans h

def Operation.perform [SetInterface μ α] : Operation α → μ → ObservedCall μ α Empty
  | len, s => .done s (.count (SetInterface.len s))
  | isEmpty, s => .done s (.flag (SetInterface.isEmpty s))
  | contains x, s => .done s (.flag (SetInterface.contains s x))
  | insert x, s => .quiet ((SetInterface.insert s x).map .flag)
  | erase x, s => .done (SetInterface.erase s x).2 (.flag (SetInterface.erase s x).1)
  | visit, s => .done s (.visited (SetInterface.visit s))

end SetInterface

end LinearProbing
