import LinearProbing.ValueMap

/-!
# LinearProbing.KeyMap

**Maps from keys to values.** Keys are compared by their equality. Each entry keeps its hash, so that
an entry can be moved without asking the hasher again.
-/

namespace LinearProbing

/-- An entry with the hash of its key. -/
structure Bucket (κ ν : Type) where
  hash : UInt64
  key : κ
  /-- The value, `none` for a null. -/
  stored : Option ν

instance {κ ν : Type} : EntrySlot (Option (Bucket κ ν)) κ ν where
  layout :=
    { empty := none
      entryIn? := fun s => s.map fun b => (b.key, b.stored)
      hash := fun s => (s.map Bucket.hash).getD 0
      occupy := fun hash key stored => some ⟨hash, key, stored⟩
      leave := fun _ => none }

/-- A map from keys to values, hashed by `η`. -/
abbrev KeyMap (η κ ν : Type) : Type := ValueMap (Option (Bucket κ ν)) (Mixed η) κ ν

end LinearProbing
