import LinearProbing.KeyMap
import LinearProbing.KeySet
import LinearProbing.WordKeyMap
import LinearProbing.WordSet
import LinearProbing.Proofs.MemberSet.Represents
import LinearProbing.Proofs.ValueMap.Represents

/-!
# LinearProbing.Proofs.LawfulSlots

**The slots of the containers are lawful.** Slots with words need nothing: equal words are the same. Slots
with other keys need a hasher that gives equal keys equal hashes (`Hasher.Lawful`).
-/

namespace LinearProbing

/-- Equal keys have equal hashes. -/
def Hasher.Lawful {η : Type} (hasher : η) (κ : Type) [BEq κ] [Hasher η κ] : Prop :=
  ∀ a b : κ, (a == b) = true → Hasher.rawHash hasher a = Hasher.rawHash hasher b

/-- Slots of a map from words. -/
theorem wordSlot_lawful {κ ν : Type} [SignedWord κ] (hashing : Spreading) :
    ValueMap.LawfulSlots (WordSlot κ ν) hashing where
  entryIn?_empty := rfl
  entryIn?_leave _ := rfl
  entryIn?_occupy _ _ _ := rfl
  hash_occupy _ _ _ := rfl
  hash_congr _ _ h := congrArg SignedWord.spread (eq_of_beq h)

/-- Slots of a map from keys. -/
theorem bucket_lawful {η κ ν : Type} [BEq κ] [Hasher η κ] {hashing : Mixed η}
    (h : Hasher.Lawful hashing.hasher κ) :
    ValueMap.LawfulSlots (Option (Bucket κ ν)) hashing where
  entryIn?_empty := rfl
  entryIn?_leave _ := rfl
  entryIn?_occupy _ _ _ := rfl
  hash_occupy _ _ _ := rfl
  hash_congr a b hab := congrArg mix64 (h a b hab)

/-- Slots of a set of words: every member but minus one can be stored. -/
theorem wordMember_lawful {α : Type} [SignedWord α] (hashing : Spreading) :
    MemberSet.LawfulSlots α hashing fun (x : α) _ => x ≠ SignedWord.minusOne where
  entryIn?_empty := if_pos rfl
  entryIn?_leave _ := if_pos rfl
  entryIn?_occupy _ _ h := if_neg h
  hash_occupy _ _ _ := rfl
  hash_congr _ _ h := congrArg SignedWord.spread (eq_of_beq h)

/-- Slots of a set of keys. -/
theorem hashedMember_lawful {η α : Type} [BEq α] [Hasher η α] {hashing : Mixed η}
    (h : Hasher.Lawful hashing.hasher α) :
    MemberSet.LawfulSlots (Option (HashedMember α)) hashing EntryLayout.AnyEntry where
  entryIn?_empty := rfl
  entryIn?_leave _ := rfl
  entryIn?_occupy _ _ _ := rfl
  hash_occupy _ _ _ := rfl
  hash_congr a b hab := congrArg mix64 (h a b hab)

end LinearProbing
