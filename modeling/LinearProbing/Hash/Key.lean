import LinearProbing.Hash.Content

/-!
# LinearProbing.Hash.Key

**How keys are hashed.** A table probes by the hash that a `KeyHash` gives. Words are spread as they
are (`Spreading`); other keys go through a hasher of the caller's choice, whose hash is mixed before use
(`Mixed`), so that a poor hasher still spreads its keys over the table.
-/

namespace LinearProbing

/-- A way to hash keys, with whatever it needs to know. -/
class KeyHash (η κ : Type) where
  hash : η → κ → UInt64

/-- A hasher of the caller's choice. Keys that are equal must have equal hashes. -/
class Hasher (η κ : Type) where
  rawHash : η → κ → UInt64

/-- Words are spread. -/
structure Spreading where

instance : Inhabited Spreading := ⟨⟨⟩⟩

instance {κ : Type} [SignedWord κ] : KeyHash Spreading κ where
  hash _ key := SignedWord.spread key

/-- Other keys are hashed by a hasher and mixed. -/
structure Mixed (η : Type) where
  hasher : η

instance {η : Type} [Inhabited η] : Inhabited (Mixed η) := ⟨⟨default⟩⟩

instance {η κ : Type} [Hasher η κ] : KeyHash (Mixed η) κ where
  hash h key := mix64 (Hasher.rawHash h.hasher key)

/-- The hasher that gives the content hash. -/
structure ContentHasher where

instance : Inhabited ContentHasher := ⟨⟨⟩⟩

instance {κ : Type} [Digest] [ContentHash κ] : Hasher ContentHasher κ where
  rawHash _ key := contentHash key

end LinearProbing
