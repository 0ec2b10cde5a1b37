import LinearProbing.WordSet
import LinearProbing.Proofs.MemberSet.Operation

/-!
# LinearProbing.Proofs.WordSet.Operation

**The operations of a set of words, and what they are to do** to a plain finite set. That minus one is
kept beside the table does not show in the specification.

`difference` makes a new set: the run goes on with it.
-/

namespace LinearProbing.WordSet

variable {α : Type}

/-- An operation on a set of words. -/
inductive Operation (α : Type) where
  | contains (x : α)
  | containsAll (xs : List α)
  | len
  | insert (x : α)
  | extend (xs : List α)
  | erase (x : α)
  | eraseAll (xs : List α)
  | retain (keeps : α → Reply Bool)
  | difference (other : WordSet α)
  | clear
  | compact
  | cursor (script : List (CursorAction Empty))

namespace Operation

variable [SignedWord α]

/-- The searches for a value: minus one is not in the table and needs none. -/
def searches (s : WordSet α) (x : α) : List Probe :=
  if x = SignedWord.minusOne then [] else [s.inner.locate x]

def perform : Operation α → WordSet α → MemberSet.OperationCall (WordSet α) α
  | contains x, s => .searching (searches s x) s (.done s (.flag (s.contains x)))
  | containsAll xs, s => .searching (xs.flatMap (searches s)) s (.done s (.flag (s.containsAll xs)))
  | len, s => .done s (.count s.len)
  | insert x, s => .quiet ((s.insert x).map .flag)
  | extend xs, s => .quiet ((s.extend xs).map fun _ => .nothing)
  | erase x, s => .searching (searches s x) s (.done (s.erase x).2 (.flag (s.erase x).1))
  -- once a member is removed from the table, some slot is vacant
  | eraseAll xs, s =>
    .searching ((xs.flatMap (searches s)).take 1) s (.done (s.eraseAll xs).2 (.flag (s.eraseAll xs).1))
  | retain keeps, s => ((s.retain keeps).mapCalls .entry).map fun _ => .nothing
  | difference other, s => .quiet ((s.difference other).map fun _ => .nothing)
  | clear, s => .done s.clear .nothing
  | compact, s => .quiet (s.compact.map fun _ => .nothing)
  | cursor script, s =>
    let answered := CursorInterface.runScript script s.openCursor
    .done answered.2.set (.script answered.1)

/-- What an operation is to do to a finite set. The members in some order are given for the operations that
go through them. -/
def specify (order : List α) :
    Operation α → FiniteSet α → MemberSet.OperationCall (FiniteSet α) α
  | contains x, s => .done s (.flag (s.contains x))
  | containsAll xs, s => .done s (.flag (xs.all s.contains))
  | len, s => .done s (.count s.size)
  | insert x, s => .done (s.insert x) (.flag (! s.contains x))
  | extend xs, s => .done (xs.foldl FiniteSet.insert s) .nothing
  | erase x, s => .done (s.erase x) (.flag (s.contains x))
  | eraseAll xs, s => .done (s.eraseAll xs).2 (.flag (s.eraseAll xs).1)
  | retain keeps, _ => ((FiniteSet.retain order keeps).mapCalls .entry).map fun _ => .nothing
  | difference other, s => .done (s.without other.contains) .nothing
  | clear, _ => .done {} .nothing
  | compact, s => .done s .nothing
  | cursor script, _ =>
    let answered := CursorInterface.runScript script (FiniteSet.walk order)
    .done ⟨answered.2.contents⟩ (.script answered.1)

/-- What an operation may do to a finite set: it goes through the members in any order. -/
def Allows (op : Operation α) (s : FiniteSet α) (d : MemberSet.OperationCall (FiniteSet α) α) : Prop :=
  ∃ order, order.Perm s.members ∧ d = op.specify order s

end Operation

end LinearProbing.WordSet
