import LinearProbing.MemberSet

/-!
# LinearProbing.KeySet

**Sets of keys.** Members are compared by their equality, and each keeps its hash.
-/

namespace LinearProbing

/-- A member with its hash. -/
structure HashedMember (α : Type) where
  hash : UInt64
  member : α

instance {α : Type} : MemberSlot (Option (HashedMember α)) α where
  layout :=
    { empty := none
      entryIn? := fun s => s.map fun e => (e.member, ())
      hash := fun s => (s.map HashedMember.hash).getD 0
      occupy := fun hash member _ => some ⟨hash, member⟩
      leave := fun _ => none }

/-- A set of keys, hashed by `η`. -/
abbrev KeySet (η α : Type) : Type := MemberSet (Option (HashedMember α)) (Mixed η) α

end LinearProbing
