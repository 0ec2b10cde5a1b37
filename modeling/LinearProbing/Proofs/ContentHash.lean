import LinearProbing.Hash.Choice
import LinearProbing.Proofs.LawfulSlots
import LinearProbing.Proofs.SameElements

/-!
# LinearProbing.Proofs.ContentHash

**Content hashes agree with equality**, whatever hasher is at work, if values that are equal feed the same
to it (`LawfulContentHash`): the same entries, in any order, have the same hash as a map, and the same members
as a set.
-/

namespace LinearProbing

/-- Equal values feed the same to every hasher, whatever it was fed with before them. -/
class LawfulContentHash (α : Type) [BEq α] [ContentHash α] : Prop where
  feed_congr [Digest] (state : Digest.State) {a b : α} :
    (a == b) = true → ContentHash.feed state a = ContentHash.feed state b

instance {α : Type} [BEq α] [LawfulBEq α] [ContentHash α] : LawfulContentHash α where
  feed_congr _ _ _ h := by rw [eq_of_beq h]

instance {α : Type} [BEq α] [ContentHash α] [LawfulContentHash α] : LawfulContentHash (Option α) where
  feed_congr state a b h := by
    cases a <;> cases b
    · rfl
    · cases h
    · cases h
    · exact LawfulContentHash.feed_congr (Digest.feedWord state 1) h

theorem contentHash_congr {α : Type} [Digest] [BEq α] [ContentHash α] [LawfulContentHash α] {a b : α}
    (h : (a == b) = true) : contentHash a = contentHash b :=
  congrArg Digest.finish (LawfulContentHash.feed_congr Digest.start h)

/-! ### Keys without case -/

namespace Caseless

theorem folded_eq {a b : Caseless} (h : (a == b) = true) : a.folded = b.folded :=
  eq_of_beq (α := String) h

theorem beq_of_folded {a b : Caseless} {s : String} (ha : a.folded = s) (hb : b.folded = s) :
    (a == b) = true :=
  (beq_iff_eq (α := String)).mpr (ha.trans hb.symm)

instance : EquivBEq Caseless where
  rfl {a} := beq_self_eq_true a.folded
  symm {a b} h := (BEq.symm h : (b.folded == a.folded) = true)
  trans {a b c} h h' := (BEq.trans (b := b.folded) h h' : (a.folded == c.folded) = true)

instance : LawfulContentHash Caseless where
  feed_congr state _ _ h := congrArg (fun s : String => ContentHash.feed state s) (folded_eq h)

/-- Lists of keys are the same if their spellings are. -/
theorem eq_of_spellings {l l' : List Caseless} (h : l.map spelling = l'.map spelling) : l = l' :=
  List.map_injective_iff.mpr (fun _ _ heq => congrArg mk heq) h

/-- Every hasher to choose from is blind to case. -/
theorem lawful_hasherChoice [Digest] (hasher : HasherChoice) : Hasher.Lawful hasher Caseless := by
  intro a b h
  cases hasher with
  | content => exact contentHash_congr h
  | seeded seed =>
      exact congrArg Digest.finish
        (LawfulContentHash.feed_congr (ContentHash.feed Digest.start seed) h)
  | byteSum =>
      exact congrArg (fun s : String => (ByteKey.bytes s).foldl (fun sum b => sum + b.toUInt64) 0)
        (folded_eq h)
  | constant _ => rfl

end Caseless

/-! ### Maps and sets -/

variable [Digest]

/-- **The same entries have the same hash as a map.** -/
theorem mapContentHash_congr {κ β : Type} [BEq κ] [EquivBEq κ] [ContentHash κ] [LawfulContentHash κ]
    [BEq β] [EquivBEq β] [ContentHash β] [LawfulContentHash β] {M N : FiniteMap κ β} (hM : M.Distinct)
    (hN : N.Distinct) (h : SameEntries M.entries N.entries) :
    mapContentHash M.entries = mapContentHash N.entries := by
  have hentry : ∀ {e f : κ × β}, SameEntry e f → entryHash e = entryHash f := fun {e f} hsame => by
    rw [entryHash, entryHash, contentHash_congr hsame.1, contentHash_congr hsame.2]
  exact h.foldl_add_eq sameEntry_equivalence hM.apart hN.apart hentry 0

/-- The hash of a map does not depend on the order of its entries. -/
theorem mapContentHash_perm {κ β : Type} [ContentHash κ] [ContentHash β] {l l' : List (κ × β)}
    (h : l.Perm l') : mapContentHash l = mapContentHash l' := by
  refine h.foldl_eq' (fun e _ f _ sum => ?_) 0
  rw [UInt64.add_assoc, UInt64.add_comm (entryHash e), ← UInt64.add_assoc]

/-- **The same members have the same hash as a set.** -/
theorem setContentHash_congr {α : Type} [BEq α] [EquivBEq α] [ContentHash α] [LawfulContentHash α]
    {S T : FiniteSet α} (hS : S.Distinct) (hT : T.Distinct) (h : SameMembers S.members T.members) :
    setContentHash S.members = setContentHash T.members :=
  h.foldl_add_eq beq_equivalence hS.apart hT.apart contentHash_congr 0

end LinearProbing
