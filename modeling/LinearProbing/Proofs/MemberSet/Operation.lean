import LinearProbing.MemberSet
import LinearProbing.Proofs.FiniteMap
import LinearProbing.Proofs.Operation
import LinearProbing.Proofs.Sweep

/-!
# LinearProbing.Proofs.MemberSet.Operation

**The operations of a set, and what they are to do.** `Operation.perform` runs an operation on a set;
`Operation.specify` says what it does to a plain finite set. A member that is equal to a new one stays as
it is.

`difference` makes a new set: the run goes on with it.
-/

namespace LinearProbing

/-! ### Finite sets -/

namespace FiniteSet

variable {α : Type} [BEq α] (s : FiniteSet α)

/-- Removes the members of a list; says whether any was removed. -/
def eraseAll (s : FiniteSet α) : List α → Bool × FiniteSet α
  | [] => (false, s)
  | x :: rest =>
    let others := (s.erase x).eraseAll rest
    (s.contains x || others.1, others.2)

omit [BEq α] in
/-- The members that a predicate does not select. -/
def without (selects : α → Bool) : FiniteSet α := ⟨s.members.filter (! selects ·)⟩

omit [BEq α] in
/-- Removes the members that a predicate does not keep, going through them in some order. -/
def retain (order : List α) (keeps : α → Reply Bool) : Call (FiniteSet α) α Unit :=
  ((sift (fun x => (keeps x).map not) order false).within FiniteSet.mk).map fun _ => ()

omit [BEq α] in
/-- Nothing can be written through a cursor. -/
def walk (order : List α) : Walk α Empty where
  writes := nofun
  ahead := order

end FiniteSet

namespace MemberSet

variable {σ η α : Type}

/-- An operation on a set. -/
inductive Operation (σ η α : Type) where
  | contains (x : α)
  | containsAll (xs : List α)
  | get? (x : α)
  | len
  | insert (x : α)
  | extend (xs : List α)
  | erase (x : α)
  | take (x : α)
  | eraseAll (xs : List α)
  | retain (keeps : α → Reply Bool)
  | difference (other : MemberSet σ η α)
  | clear
  | compact
  | copy
  | cursor (script : List (CursorAction Empty))

abbrev OperationCall (τ α : Type) : Type := Call τ (Invocation α α Empty) (Answer α Empty)

namespace Operation

variable [BEq α]

def perform [MemberSlot σ α] [KeyHash η α] :
    Operation σ η α → MemberSet σ η α → OperationCall (MemberSet σ η α) α
  | contains x, s => .searching [s.locate x] s (.done s (.flag (s.contains x)))
  | containsAll xs, s => .searching (xs.map s.locate) s (.done s (.flag (s.containsAll xs)))
  | get? x, s => .searching [s.locate x] s (.done s (.found (s.get? x)))
  | len, s => .done s (.count s.len)
  | insert x, s => .quiet ((s.insert x).map .flag)
  | extend xs, s => .quiet ((s.extend xs).map fun _ => .nothing)
  | erase x, s => .searching [s.locate x] s (.done (s.erase x).2 (.flag (s.erase x).1))
  | take x, s => .searching [s.locate x] s (.done (s.take x).2 (.found (s.take x).1))
  -- once a member is removed, some slot is vacant
  | eraseAll xs, s =>
    .searching ((xs.map s.locate).take 1) s (.done (s.eraseAll xs).2 (.flag (s.eraseAll xs).1))
  | retain keeps, s => ((s.retain keeps).mapCalls .entry).map fun _ => .nothing
  | difference other, s => .quiet ((s.difference other).map fun _ => .nothing)
  | clear, s => .done s.clear .nothing
  | compact, s => .quiet (s.compact.map fun _ => .nothing)
  | copy, s => .done s.copy .nothing
  | cursor script, s =>
    let answered := CursorInterface.runScript script s.openCursor
    .done answered.2.set (.script answered.1)

/-- What an operation is to do to a finite set. The members in some order are given for the operations that
go through them. -/
def specify [MemberSlot σ α] [KeyHash η α] (order : List α) :
    Operation σ η α → FiniteSet α → OperationCall (FiniteSet α) α
  | contains x, s => .done s (.flag (s.contains x))
  | containsAll xs, s => .done s (.flag (xs.all s.contains))
  | get? x, s => .done s (.found (s.find? x))
  | len, s => .done s (.count s.size)
  | insert x, s => .done (s.insert x) (.flag (! s.contains x))
  | extend xs, s => .done (xs.foldl FiniteSet.insert s) .nothing
  | erase x, s => .done (s.erase x) (.flag (s.contains x))
  | take x, s => .done (s.erase x) (.found (s.find? x))
  | eraseAll xs, s => .done (s.eraseAll xs).2 (.flag (s.eraseAll xs).1)
  | retain keeps, _ => ((FiniteSet.retain order keeps).mapCalls .entry).map fun _ => .nothing
  | difference other, s => .done (s.without other.contains) .nothing
  | clear, _ => .done {} .nothing
  | compact, s => .done s .nothing
  | copy, s => .done s .nothing
  | cursor script, _ =>
    let answered := CursorInterface.runScript script (FiniteSet.walk order)
    .done ⟨answered.2.contents⟩ (.script answered.1)

/-- What an operation may do to a finite set: it goes through the members in any order. -/
def Allows [MemberSlot σ α] [KeyHash η α] (op : Operation σ η α) (s : FiniteSet α)
    (d : OperationCall (FiniteSet α) α) : Prop :=
  ∃ order, order.Perm s.members ∧ d = op.specify order s

end Operation

end MemberSet

end LinearProbing
