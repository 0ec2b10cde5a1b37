import LinearProbing.Hash.Polynomial
import LinearProbing.Proofs.Contents

/-!
# LinearProbing.Proofs.ContentEquality

**Equality and content hashes are about what containers hold**, whatever their capacities, load factors,
histories, hashers and missing values are: containers that are reached are equal if and only if they hold
the same, so that their equality is an equivalence although it looks in one direction only, and equal ones
have equal hash codes (`LogicalEquality`). Comparing with a plain list of entries is comparing with what is
held (`ComparesWith`), and the hash code is that of any such list with the same entries, in any order
(`HashedAs`).
-/

namespace LinearProbing

variable {τ ε : Type}

/-! ### What is said of equality -/

/-- Containers are equal if and only if they hold the same. -/
structure LogicalEquality [BEq τ] (reached : τ → Prop) (same : τ → τ → Prop) (hashCode : τ → UInt64) :
    Prop where
  beq_iff : ∀ {a b}, reached a → reached b → ((a == b) = true ↔ same a b)
  refl : ∀ {a}, reached a → (a == a) = true
  symm : ∀ {a b}, reached a → reached b → (a == b) = true → (b == a) = true
  trans : ∀ {a b c}, reached a → reached b → reached c →
    (a == b) = true → (b == c) = true → (a == c) = true
  /-- Equal containers have equal hash codes. -/
  hashCode_eq : ∀ {a b}, reached a → reached b → (a == b) = true → hashCode a = hashCode b

/-- A container is equal to a list without repetitions if and only if it holds what is in the list. -/
def ComparesWith (reached : τ → Prop) (distinct : List ε → Prop) (holds : τ → List ε → Prop)
    (beqPlain : τ → List ε → Bool) : Prop :=
  ∀ {a l}, reached a → distinct l → (beqPlain a l = true ↔ holds a l)

/-- The hash code of a container is that of every list without repetitions of what it holds. -/
def HashedAs (reached : τ → Prop) (distinct : List ε → Prop) (holds : τ → List ε → Prop)
    (hashCode : τ → UInt64) (plainHash : List ε → UInt64) : Prop :=
  ∀ {a l}, reached a → distinct l → holds a l → hashCode a = plainHash l

theorem LogicalEquality.of_iff [BEq τ] {reached : τ → Prop} {same : τ → τ → Prop}
    {hashCode : τ → UInt64} (hsame : Equivalence same)
    (hiff : ∀ {a b}, reached a → reached b → ((a == b) = true ↔ same a b))
    (hhash : ∀ {a b}, reached a → reached b → same a b → hashCode a = hashCode b) :
    LogicalEquality reached same hashCode where
  beq_iff := hiff
  refl ha := (hiff ha ha).mpr (hsame.refl _)
  symm ha hb hab := (hiff hb ha).mpr (hsame.symm ((hiff ha hb).mp hab))
  trans ha hb hc hab hbc := (hiff ha hc).mpr (hsame.trans ((hiff ha hb).mp hab) ((hiff hb hc).mp hbc))
  hashCode_eq ha hb hab := hhash ha hb ((hiff ha hb).mp hab)

/-- Holding the same elements is an equivalence. -/
theorem sameContents_equivalence {r : ε → ε → Prop} (hr : Equivalence r) (contents : τ → List ε) :
    Equivalence fun a b => SameElements r (contents a) (contents b) where
  refl a := .refl hr (contents a)
  symm h := h.symm hr
  trans h h' := h.trans hr h'

/-! ### Maps of words -/

namespace WordMap

variable {κ ν : Type} [SignedWord κ] [SignedWord ν]

theorem logicalEquality [Digest] [ContentHash κ] [ContentHash ν] :
    LogicalEquality (fun m : WordMap κ ν => m.Reachable) (fun a b => SameEntries a.entries b.entries)
      hashCode := by
  refine .of_iff (sameContents_equivalence sameEntry_equivalence entries) ?_ ?_
  · intro a b ha hb
    obtain ⟨_, ha⟩ := ha.represents
    obtain ⟨_, hb⟩ := hb.represents
    exact ha.beq_iff hb
  · intro a b ha hb h
    obtain ⟨_, ha⟩ := ha.represents
    obtain ⟨_, hb⟩ := hb.represents
    exact mapContentHash_congr ha.distinct hb.distinct h

theorem comparesWith :
    ComparesWith (fun m : WordMap κ ν => m.Reachable) (fun l => FiniteMap.Distinct ⟨l⟩)
      (fun m l => SameEntries m.entries l) beqEntries := by
  intro m l hm hl
  obtain ⟨_, hm⟩ := hm.represents
  exact hm.beqEntries_iff hl

theorem hashedAs [Digest] [ContentHash κ] [ContentHash ν] :
    HashedAs (fun m : WordMap κ ν => m.Reachable) (fun l => FiniteMap.Distinct ⟨l⟩)
      (fun m l => SameEntries m.entries l) hashCode mapContentHash := by
  intro m l hm hl h
  obtain ⟨_, hm⟩ := hm.represents
  exact mapContentHash_congr hm.distinct hl h

end WordMap

/-! ### Maps to values that may be null -/

namespace ValueMap

variable {σ η κ ν : Type} [EntrySlot σ κ ν] [KeyHash η κ] [BEq κ] [EquivBEq κ] [BEq ν] [EquivBEq ν]
variable [ContentHash κ] [LawfulContentHash κ] [ContentHash ν] [LawfulContentHash ν]
variable {lawful : η → Prop}

theorem hashCode_congr [Digest] {policy : NullPolicy} {hashing hashing' : η} {a b : ValueMap σ η κ ν}
    (ha : a.Represents hashing policy False ⟨a.entries⟩)
    (hb : b.Represents hashing' policy False ⟨b.entries⟩) (h : SameEntries a.entries b.entries) :
    a.hashCode = b.hashCode := by
  rw [hashCode, hashCode, ha.policy_eq, hb.policy_eq]
  cases policy with
  | nullable => exact mapContentHash_congr ha.distinct hb.distinct h
  | nonNull => exact mapContentHash_congr ha.distinct.nonNull hb.distinct.nonNull h.nonNull

theorem logicalEquality [Digest] (hlawful : ∀ hashing, lawful hashing → LawfulSlots σ hashing)
    (policy : NullPolicy) :
    LogicalEquality (fun m : ValueMap σ η κ ν => m.Reachable lawful policy)
      (fun a b => SameEntries a.entries b.entries) hashCode := by
  refine .of_iff (sameContents_equivalence sameEntry_equivalence entries) ?_ ?_
  · intro a b ha hb
    obtain ⟨_, _, ha⟩ := ha.represents hlawful
    obtain ⟨_, hb', hb⟩ := hb.represents hlawful
    exact ha.beq_iff (hlawful _ hb') hb
  · intro a b ha hb h
    obtain ⟨_, _, ha⟩ := ha.represents hlawful
    obtain ⟨_, _, hb⟩ := hb.represents hlawful
    exact hashCode_congr ha hb h

omit [ContentHash κ] [LawfulContentHash κ] [ContentHash ν] [LawfulContentHash ν] in
theorem comparesWith (hlawful : ∀ hashing, lawful hashing → LawfulSlots σ hashing)
    (policy : NullPolicy) :
    ComparesWith (fun m : ValueMap σ η κ ν => m.Reachable lawful policy)
      (fun l : List (κ × ν) => FiniteMap.Distinct ⟨l⟩)
      (fun m l => SameEntries m.entries (l.map withSome)) beqEntries := by
  intro m l hm hl
  obtain ⟨_, hhashing, hm⟩ := hm.represents hlawful
  exact hm.beqEntries_iff (hlawful _ hhashing) hl

theorem hashedAs [Digest] (hlawful : ∀ hashing, lawful hashing → LawfulSlots σ hashing) :
    HashedAs (fun m : ValueMap σ η κ ν => m.Reachable lawful .nonNull)
      (fun l : List (κ × ν) => FiniteMap.Distinct ⟨l⟩)
      (fun m l => SameEntries m.entries (l.map withSome)) hashCode mapContentHash := by
  intro m l hm hl h
  obtain ⟨_, _, hm⟩ := hm.represents hlawful
  have hvalues := h.nonNull
  rw [nonNull_map_withSome] at hvalues
  rw [hashCode, hm.policy_eq]
  exact mapContentHash_congr hm.distinct.nonNull hl hvalues

end ValueMap

/-! ### Maps keyed by pairs of words -/

namespace PairMap

variable {ν : Type} [BEq ν] [EquivBEq ν]

theorem logicalEquality [Digest] [ContentHash ν] [LawfulContentHash ν] :
    LogicalEquality (fun m : PairMap ν => m.Reachable) (fun a b => SameEntries a.entries b.entries)
      hashCode :=
  .of_iff (sameContents_equivalence sameEntry_equivalence entries) Reachable.beq_iff
    fun ha hb h => mapContentHash_congr ha.distinct hb.distinct h

theorem hashedAs [Digest] [ContentHash ν] [LawfulContentHash ν] :
    HashedAs (fun m : PairMap ν => m.Reachable) (fun l => FiniteMap.Distinct ⟨l⟩)
      (fun m l => SameEntries m.entries l) hashCode mapContentHash :=
  fun hm hl h => mapContentHash_congr hm.distinct hl h

end PairMap

/-! ### Tallies -/

namespace Tally

variable {κ ν : Type} [SignedWord κ] [SignedWord ν]

/-- Having the same initial value and the same counts is an equivalence. -/
theorem sameCounts_equivalence :
    Equivalence fun a b : Tally κ ν => a.initial = b.initial ∧ SameEntries a.entries b.entries where
  refl _ := ⟨rfl, .refl sameEntry_equivalence _⟩
  symm h := ⟨h.1.symm, h.2.symm sameEntry_equivalence⟩
  trans h h' := ⟨h.1.trans h'.1, h.2.trans sameEntry_equivalence h'.2⟩

variable [ContentHash κ] [ContentHash ν]

theorem logicalEquality [Digest] :
    LogicalEquality (fun t : Tally κ ν => t.Reachable)
      (fun a b => a.initial = b.initial ∧ SameEntries a.entries b.entries) hashCode :=
  .of_iff sameCounts_equivalence Reachable.beq_iff fun ha hb h =>
    WordMap.logicalEquality.hashCode_eq ha.counts hb.counts
      ((WordMap.logicalEquality.beq_iff ha.counts hb.counts).mpr h.2)

theorem hashedAs [Digest] :
    HashedAs (fun t : Tally κ ν => t.Reachable) (fun l => FiniteMap.Distinct ⟨l⟩)
      (fun t l => SameEntries t.entries l) hashCode mapContentHash :=
  fun ht hl h => WordMap.hashedAs ht.counts hl h

end Tally

/-! ### Sets -/

namespace WordSet

variable {α : Type} [SignedWord α] [ContentHash α]

theorem logicalEquality [Digest] :
    LogicalEquality (fun s : WordSet α => s.Reachable) (fun a b => SameMembers a.members b.members)
      hashCode :=
  .of_iff (sameContents_equivalence beq_equivalence members) Reachable.beq_iff
    fun ha hb h => setContentHash_congr ha.represents.distinct hb.represents.distinct h

theorem hashedAs [Digest] :
    HashedAs (fun s : WordSet α => s.Reachable) (fun l => FiniteSet.Distinct ⟨l⟩)
      (fun s l => SameMembers s.members l) hashCode setContentHash :=
  fun hs hl h => setContentHash_congr hs.represents.distinct hl h

end WordSet

namespace KeySet

variable {η α : Type} [Hasher η α] [BEq α] [EquivBEq α]

theorem logicalEquality [Digest] [ContentHash α] [LawfulContentHash α] :
    LogicalEquality (fun s : KeySet η α => Reachable s) (fun a b => SameMembers a.members b.members)
      MemberSet.hashCode := by
  refine .of_iff (sameContents_equivalence beq_equivalence MemberSet.members) ?_ ?_
  · intro a b ha hb
    obtain ⟨_, _, ha⟩ := ha.represents
    obtain ⟨_, hlawful, hb⟩ := hb.represents
    exact ha.beq_iff (hashedMember_lawful hlawful) hb
  · intro a b ha hb h
    obtain ⟨_, _, ha⟩ := ha.represents
    obtain ⟨_, _, hb⟩ := hb.represents
    exact setContentHash_congr ha.distinct hb.distinct h

theorem comparesWith :
    ComparesWith (fun s : KeySet η α => Reachable s) (fun l => FiniteSet.Distinct ⟨l⟩)
      (fun s l => SameMembers s.members l) MemberSet.beqMembers := by
  intro s l hs hl
  obtain ⟨_, hlawful, hs⟩ := hs.represents
  exact hs.beqMembers_iff (hashedMember_lawful hlawful) hl

theorem hashedAs [Digest] [ContentHash α] [LawfulContentHash α] :
    HashedAs (fun s : KeySet η α => Reachable s) (fun l => FiniteSet.Distinct ⟨l⟩)
      (fun s l => SameMembers s.members l) MemberSet.hashCode setContentHash := by
  intro s l hs hl h
  obtain ⟨_, _, hs⟩ := hs.represents
  exact setContentHash_congr hs.distinct hl h

end KeySet

/-! ### All containers -/

/-- **Equality and content hashes are about what containers hold.** -/
theorem logicalEquality_of_reachable [Digest] :
    (∀ {κ ν : Type} [SignedWord κ] [SignedWord ν] [ContentHash κ] [ContentHash ν],
      LogicalEquality (fun m : WordMap κ ν => m.Reachable) (fun a b => SameEntries a.entries b.entries)
        WordMap.hashCode ∧
      ComparesWith (fun m : WordMap κ ν => m.Reachable) (fun l => FiniteMap.Distinct ⟨l⟩)
        (fun m l => SameEntries m.entries l) WordMap.beqEntries ∧
      HashedAs (fun m : WordMap κ ν => m.Reachable) (fun l => FiniteMap.Distinct ⟨l⟩)
        (fun m l => SameEntries m.entries l) WordMap.hashCode mapContentHash) ∧
    (∀ {κ ν : Type} [SignedWord κ] [BEq ν] [EquivBEq ν] [ContentHash κ] [ContentHash ν]
        [LawfulContentHash ν] (policy : NullPolicy),
      LogicalEquality (fun m : WordKeyMap κ ν => m.Reachable (fun _ => True) policy)
        (fun a b => SameEntries a.entries b.entries) ValueMap.hashCode ∧
      ComparesWith (fun m : WordKeyMap κ ν => m.Reachable (fun _ => True) policy)
        (fun l => FiniteMap.Distinct ⟨l⟩) (fun m l => SameEntries m.entries (l.map withSome))
        ValueMap.beqEntries ∧
      HashedAs (fun m : WordKeyMap κ ν => m.Reachable (fun _ => True) .nonNull)
        (fun l => FiniteMap.Distinct ⟨l⟩) (fun m l => SameEntries m.entries (l.map withSome))
        ValueMap.hashCode mapContentHash) ∧
    (∀ {η κ ν : Type} [Hasher η κ] [BEq κ] [EquivBEq κ] [BEq ν] [EquivBEq ν] [ContentHash κ]
        [LawfulContentHash κ] [ContentHash ν] [LawfulContentHash ν] (policy : NullPolicy),
      LogicalEquality
        (fun m : KeyMap η κ ν => m.Reachable (fun hashing => Hasher.Lawful hashing.hasher κ) policy)
        (fun a b => SameEntries a.entries b.entries) ValueMap.hashCode ∧
      ComparesWith
        (fun m : KeyMap η κ ν => m.Reachable (fun hashing => Hasher.Lawful hashing.hasher κ) policy)
        (fun l => FiniteMap.Distinct ⟨l⟩) (fun m l => SameEntries m.entries (l.map withSome))
        ValueMap.beqEntries ∧
      HashedAs
        (fun m : KeyMap η κ ν => m.Reachable (fun hashing => Hasher.Lawful hashing.hasher κ) .nonNull)
        (fun l => FiniteMap.Distinct ⟨l⟩) (fun m l => SameEntries m.entries (l.map withSome))
        ValueMap.hashCode mapContentHash) ∧
    (∀ {ν : Type} [BEq ν] [EquivBEq ν] [ContentHash ν] [LawfulContentHash ν],
      LogicalEquality (fun m : PairMap ν => m.Reachable) (fun a b => SameEntries a.entries b.entries)
        PairMap.hashCode ∧
      ComparesWith (fun m : PairMap ν => m.Reachable) (fun l => FiniteMap.Distinct ⟨l⟩)
        (fun m l => SameEntries m.entries l) PairMap.beqEntries ∧
      HashedAs (fun m : PairMap ν => m.Reachable) (fun l => FiniteMap.Distinct ⟨l⟩)
        (fun m l => SameEntries m.entries l) PairMap.hashCode mapContentHash) ∧
    (∀ {κ ν : Type} [SignedWord κ] [SignedWord ν] [ContentHash κ] [ContentHash ν],
      LogicalEquality (fun t : Tally κ ν => t.Reachable)
        (fun a b => a.initial = b.initial ∧ SameEntries a.entries b.entries) Tally.hashCode ∧
      HashedAs (fun t : Tally κ ν => t.Reachable) (fun l => FiniteMap.Distinct ⟨l⟩)
        (fun t l => SameEntries t.entries l) Tally.hashCode mapContentHash) ∧
    (∀ {α : Type} [SignedWord α] [ContentHash α],
      LogicalEquality (fun s : WordSet α => s.Reachable) (fun a b => SameMembers a.members b.members)
        WordSet.hashCode ∧
      ComparesWith (fun s : WordSet α => s.Reachable) (fun l => FiniteSet.Distinct ⟨l⟩)
        (fun s l => SameMembers s.members l) WordSet.beqMembers ∧
      HashedAs (fun s : WordSet α => s.Reachable) (fun l => FiniteSet.Distinct ⟨l⟩)
        (fun s l => SameMembers s.members l) WordSet.hashCode setContentHash) ∧
    (∀ {η α : Type} [Hasher η α] [BEq α] [EquivBEq α] [ContentHash α] [LawfulContentHash α],
      LogicalEquality (fun s : KeySet η α => KeySet.Reachable s)
        (fun a b => SameMembers a.members b.members) MemberSet.hashCode ∧
      ComparesWith (fun s : KeySet η α => KeySet.Reachable s)
        (fun l => FiniteSet.Distinct ⟨l⟩) (fun s l => SameMembers s.members l) MemberSet.beqMembers ∧
      HashedAs (fun s : KeySet η α => KeySet.Reachable s)
        (fun l => FiniteSet.Distinct ⟨l⟩) (fun s l => SameMembers s.members l) MemberSet.hashCode
        setContentHash) := by
  refine ⟨?_, ?_, ?_, ?_, ?_, ?_, ?_⟩
  · -- a spread of machine words is fixed, so its law is no condition; a hasher of the caller's brings its
    -- own
    intro κ ν _ _ _ _
    exact ⟨WordMap.logicalEquality, WordMap.comparesWith, WordMap.hashedAs⟩
  · intro κ ν _ _ _ _ _ _ policy
    have hE : ∀ hashing : Spreading, True → ValueMap.LawfulSlots (κ := κ) (WordSlot κ ν) hashing :=
      fun hashing _ => wordSlot_lawful hashing
    exact ⟨ValueMap.logicalEquality hE policy, ValueMap.comparesWith hE policy, ValueMap.hashedAs hE⟩
  · intro η κ ν _ _ _ _ _ _ _ _ _ policy
    have hE : ∀ hashing : Mixed η, Hasher.Lawful hashing.hasher κ →
        ValueMap.LawfulSlots (κ := κ) (Option (Bucket κ ν)) hashing := fun _ h => bucket_lawful h
    exact ⟨ValueMap.logicalEquality hE policy, ValueMap.comparesWith hE policy, ValueMap.hashedAs hE⟩
  · intro ν _ _ _ _
    exact ⟨PairMap.logicalEquality, fun hm hl => hm.beqEntries_iff hl, PairMap.hashedAs⟩
  · intro κ ν _ _ _ _
    exact ⟨Tally.logicalEquality, Tally.hashedAs⟩
  · intro α _ _
    exact ⟨WordSet.logicalEquality, fun hs hl => hs.beqMembers_iff hl, WordSet.hashedAs⟩
  · intro η α _ _ _ _ _
    exact ⟨KeySet.logicalEquality, KeySet.comparesWith, KeySet.hashedAs⟩

/-- Containers with different tables that are equal: they differ in their load factors, in their histories,
in their missing values and in their hashers, and the members of the sets of keys in their spelling. -/
theorem logicalEquality_of_reachable_differing :
    let sparse : TableConfig := { loadFactor := ⟨0x3c800000⟩ }
    let words : WordMap Int32 Int32 :=
      finalState WordMap.Operation.perform [.insert 1 10, .insert 9 90, .insert 17 170, .erase 9]
        (.empty (-1))
    let sparseWords : WordMap Int32 Int32 :=
      finalState WordMap.Operation.perform [.insert 17 170, .insert 1 11, .insert 1 10]
        (.ofSizing (.ofCapacity 8 sparse.loadFactor) .cached 0)
    let wordKeys : WordKeyMap Int64 Int32 :=
      finalState ValueMap.Operation.perform [.insert 1 10, .insertNull 9] (.empty .nullable {})
    let sparseWordKeys : WordKeyMap Int64 Int32 :=
      finalState ValueMap.Operation.perform [.insert 9 90, .insert 1 10, .insertNull 9]
        (.ofSizing (.ofCapacity 8 sparse.loadFactor) .cached .nullable {})
    let keys : KeyMap HasherChoice String Int32 :=
      finalState ValueMap.Operation.perform [.insert "a" 1, .insert "b" 2]
        (.empty .nonNull ⟨.constant 7⟩)
    let sparseKeys : KeyMap HasherChoice String Int32 :=
      finalState ValueMap.Operation.perform [.insert "b" 2, .insert "c" 3, .insert "a" 1, .erase "c"]
        (.ofSizing (.ofCapacity 8 sparse.loadFactor) .cached .nonNull ⟨.byteSum⟩)
    let pairs : PairMap Int32 :=
      finalState PairMap.Operation.perform [.extend [((1, 2), 10), ((2, 1), 20)]] .empty
    let sparsePairs : PairMap Int32 :=
      finalState PairMap.Operation.perform [.extend [((2, 1), 20), ((1, 2), 10)]]
        ⟨.ofSizing (.ofCapacity 8 sparse.loadFactor) .cached .nonNull {}⟩
    let tally : Tally Int32 Int32 :=
      finalState Tally.Operation.perform [.incrementAndGet 5, .set 6 2, .addAndGet 6 (-2)] (.empty 0)
    let sparseTally : Tally Int32 Int32 :=
      finalState Tally.Operation.perform [.set 5 1]
        ⟨.ofSizing (.ofCapacity 8 sparse.loadFactor) .cached 0⟩
    let wordSet : WordSet Int32 :=
      finalState WordSet.Operation.perform [.extend [-1, 1, 2], .erase 2] .empty
    let sparseWordSet : WordSet Int32 :=
      finalState WordSet.Operation.perform [.extend [1, -1]]
        ⟨.ofSizing (.ofCapacity 8 sparse.loadFactor) .cached {}, false⟩
    let keySet : KeySet HasherChoice Caseless :=
      finalState MemberSet.Operation.perform [.insert ⟨"a"⟩, .insert ⟨"B"⟩] (.empty ⟨.content⟩)
    let sparseKeySet : KeySet HasherChoice Caseless :=
      finalState MemberSet.Operation.perform [.insert ⟨"b"⟩, .insert ⟨"A"⟩]
        (.ofSizing (.ofCapacity 8 sparse.loadFactor) .cached ⟨.byteSum⟩)
    let lawful : Mixed HasherChoice → Prop := fun hashing => Hasher.Lawful hashing.hasher String
    (words.Reachable ∧ sparseWords.Reachable ∧ words.capacity ≠ sparseWords.capacity ∧
      (words == sparseWords) = true ∧ SameEntries words.entries sparseWords.entries ∧
      words.hashCode = sparseWords.hashCode ∧ SameEntries words.entries [(17, 170), (1, 10)] ∧
      words.hashCode = mapContentHash [((17 : Int32), (170 : Int32)), (1, 10)]) ∧
    (wordKeys.Reachable (fun _ => True) .nullable ∧ sparseWordKeys.Reachable (fun _ => True) .nullable ∧
      wordKeys.capacity ≠ sparseWordKeys.capacity ∧ (wordKeys == sparseWordKeys) = true ∧
      SameEntries wordKeys.entries sparseWordKeys.entries ∧ wordKeys.hashCode = sparseWordKeys.hashCode ∧
      ¬ SameEntries wordKeys.entries ([((1 : Int64), (10 : Int32))].map withSome)) ∧
    (keys.Reachable lawful .nonNull ∧ sparseKeys.Reachable lawful .nonNull ∧
      keys.capacity ≠ sparseKeys.capacity ∧ (keys == sparseKeys) = true ∧
      SameEntries keys.entries sparseKeys.entries ∧ keys.hashCode = sparseKeys.hashCode ∧
      keys.hashCode = mapContentHash [("b", (2 : Int32)), ("a", 1)]) ∧
    (pairs.Reachable ∧ sparsePairs.Reachable ∧ pairs.capacity ≠ sparsePairs.capacity ∧
      (pairs == sparsePairs) = true ∧ SameEntries pairs.entries sparsePairs.entries ∧
      pairs.hashCode = sparsePairs.hashCode ∧
      pairs.hashCode = mapContentHash [(((2 : Int32), (1 : Int32)), (20 : Int32)), ((1, 2), 10)]) ∧
    (tally.Reachable ∧ sparseTally.Reachable ∧ tally.capacity ≠ sparseTally.capacity ∧
      (tally == sparseTally) = true ∧ SameEntries tally.entries sparseTally.entries ∧
      tally.hashCode = sparseTally.hashCode) ∧
    (wordSet.Reachable ∧ sparseWordSet.Reachable ∧ wordSet.capacity ≠ sparseWordSet.capacity ∧
      (wordSet == sparseWordSet) = true ∧ SameMembers wordSet.members sparseWordSet.members ∧
      wordSet.hashCode = sparseWordSet.hashCode ∧ wordSet.hashCode = setContentHash [(1 : Int32), -1]) ∧
    (KeySet.Reachable keySet ∧ KeySet.Reachable sparseKeySet ∧ keySet.capacity ≠ sparseKeySet.capacity ∧
      (keySet == sparseKeySet) = true ∧ SameMembers keySet.members sparseKeySet.members ∧
      keySet.hashCode = sparseKeySet.hashCode ∧
      keySet.hashCode = setContentHash [(⟨"b"⟩ : Caseless), ⟨"A"⟩]) := by
  intro sparse words sparseWords wordKeys sparseWordKeys keys sparseKeys pairs sparsePairs tally sparseTally
    wordSet sparseWordSet keySet sparseKeySet lawful
  -- the second container of each pair is sparser and was filled in another order
  have hsparse : Sizing.ofConfig sparse = .ok (.ofCapacity 8 sparse.loadFactor) := by decide +kernel
  have hkeys : ∀ hasher, lawful ⟨hasher⟩ := fun hasher a b h => by rw [eq_of_beq h]
  refine ⟨?_, ?_, ?_, ?_, ?_, ?_, ?_⟩
  · have ha : words.Reachable :=
      ⟨{}, -1, _, WordMap.ofConfig_default _, .run (by decide +kernel)⟩
    have hb : sparseWords.Reachable :=
      ⟨sparse, 0, _, by rw [WordMap.ofConfig, hsparse]; rfl, .run (by decide +kernel)⟩
    have hab : (words == sparseWords) = true := by decide +kernel
    have hl : (⟨[(17, 170), (1, 10)]⟩ : FiniteMap Int32 Int32).Distinct := by decide
    obtain ⟨hequality, hcompares, hhashed⟩ := logicalEquality_of_reachable.1 (κ := Int32) (ν := Int32)
    have hplain := (hcompares ha hl).mp (by decide +kernel)
    exact ⟨ha, hb, by decide +kernel, hab, (hequality.beq_iff ha hb).mp hab,
      hequality.hashCode_eq ha hb hab, hplain, hhashed ha hl hplain⟩
  · have ha : wordKeys.Reachable (fun _ => True) .nullable :=
      ⟨{}, {}, _, trivial, ValueMap.ofConfig_default _ _, .run (by decide +kernel)⟩
    have hb : sparseWordKeys.Reachable (fun _ => True) .nullable :=
      ⟨sparse, {}, _, trivial, by rw [ValueMap.ofConfig, hsparse]; rfl, .run (by decide +kernel)⟩
    have hab : (wordKeys == sparseWordKeys) = true := by decide +kernel
    have hl : (⟨[(1, 10)]⟩ : FiniteMap Int64 Int32).Distinct := by decide
    have hdiffers : wordKeys.beqEntries [(1, 10)] ≠ true := by decide +kernel
    obtain ⟨hequality, hcompares, -⟩ :=
      logicalEquality_of_reachable.2.1 (κ := Int64) (ν := Int32) .nullable
    exact ⟨ha, hb, by decide +kernel, hab, (hequality.beq_iff ha hb).mp hab,
      hequality.hashCode_eq ha hb hab, (not_congr (hcompares ha hl)).mp hdiffers⟩
  · have ha : keys.Reachable lawful .nonNull :=
      ⟨{}, _, _, hkeys (.constant 7), ValueMap.ofConfig_default _ _, .run (by decide +kernel)⟩
    have hb : sparseKeys.Reachable lawful .nonNull :=
      ⟨sparse, _, _, hkeys .byteSum, by rw [ValueMap.ofConfig, hsparse]; rfl, .run (by decide +kernel)⟩
    have hab : (keys == sparseKeys) = true := by decide +kernel
    have hl : (⟨[("b", 2), ("a", 1)]⟩ : FiniteMap String Int32).Distinct := by decide
    obtain ⟨hequality, hcompares, hhashed⟩ :=
      logicalEquality_of_reachable.2.2.1 (η := HasherChoice) (κ := String) (ν := Int32) .nonNull
    have hplain := (hcompares ha hl).mp (by decide +kernel)
    exact ⟨ha, hb, by decide +kernel, hab, (hequality.beq_iff ha hb).mp hab,
      hequality.hashCode_eq ha hb hab, hhashed ha hl hplain⟩
  · have ha : pairs.Reachable :=
      ⟨{}, _, by rw [PairMap.ofConfig, ValueMap.ofConfig_default]; rfl, .run (by decide +kernel)⟩
    have hb : sparsePairs.Reachable :=
      ⟨sparse, _, by rw [PairMap.ofConfig, ValueMap.ofConfig, hsparse]; rfl, .run (by decide +kernel)⟩
    have hab : (pairs == sparsePairs) = true := by decide +kernel
    have hl : (⟨[((2, 1), 20), ((1, 2), 10)]⟩ : FiniteMap (Int32 × Int32) Int32).Distinct := by decide
    obtain ⟨hequality, hcompares, hhashed⟩ := logicalEquality_of_reachable.2.2.2.1 (ν := Int32)
    have hplain := (hcompares ha hl).mp (by decide +kernel)
    exact ⟨ha, hb, by decide +kernel, hab, (hequality.beq_iff ha hb).mp hab,
      hequality.hashCode_eq ha hb hab, hhashed ha hl hplain⟩
  · have ha : tally.Reachable :=
      ⟨{}, 0, _, by rw [Tally.ofConfig, WordMap.ofConfig_default]; rfl, .run (by decide +kernel)⟩
    have hb : sparseTally.Reachable :=
      ⟨sparse, 0, _, by rw [Tally.ofConfig, WordMap.ofConfig, hsparse]; rfl, .run (by decide +kernel)⟩
    have hab : (tally == sparseTally) = true := by decide +kernel
    obtain ⟨hequality, -⟩ := logicalEquality_of_reachable.2.2.2.2.1 (κ := Int32) (ν := Int32)
    exact ⟨ha, hb, by decide +kernel, hab, ((hequality.beq_iff ha hb).mp hab).2,
      hequality.hashCode_eq ha hb hab⟩
  · have ha : wordSet.Reachable := ⟨{}, _, WordSet.ofConfig_default, .run (by decide +kernel)⟩
    have hb : sparseWordSet.Reachable :=
      ⟨sparse, _, by rw [WordSet.ofConfig, MemberSet.ofConfig, hsparse]; rfl, .run (by decide +kernel)⟩
    have hab : (wordSet == sparseWordSet) = true := by decide +kernel
    have hl : (⟨[1, -1]⟩ : FiniteSet Int32).Distinct := by decide
    obtain ⟨hequality, hcompares, hhashed⟩ := logicalEquality_of_reachable.2.2.2.2.2.1 (α := Int32)
    have hplain := (hcompares ha hl).mp (by decide +kernel)
    exact ⟨ha, hb, by decide +kernel, hab, (hequality.beq_iff ha hb).mp hab,
      hequality.hashCode_eq ha hb hab, hhashed ha hl hplain⟩
  · have ha : KeySet.Reachable keySet :=
      ⟨_, {}, _, Caseless.lawful_hasherChoice .content, MemberSet.ofConfig_default _,
        .run (by decide +kernel)⟩
    have hb : KeySet.Reachable sparseKeySet :=
      ⟨_, sparse, _, Caseless.lawful_hasherChoice .byteSum,
        by rw [MemberSet.ofConfig, hsparse]; rfl, .run (by decide +kernel)⟩
    have hmembers : keySet.members = [⟨"a"⟩, ⟨"B"⟩] := Caseless.eq_of_spellings (by decide +kernel)
    have hsparseMembers : sparseKeySet.members = [⟨"A"⟩, ⟨"b"⟩] :=
      Caseless.eq_of_spellings (by decide +kernel)
    have hcase : ((⟨"a"⟩ : Caseless) == ⟨"A"⟩) = true ∧ ((⟨"B"⟩ : Caseless) == ⟨"b"⟩) = true :=
      ⟨Caseless.beq_of_folded (s := "a") (by decide +kernel) (by decide +kernel),
        Caseless.beq_of_folded (s := "b") (by decide +kernel) (by decide +kernel)⟩
    have hsame : SameMembers keySet.members sparseKeySet.members := by
      rw [hmembers, hsparseMembers]
      constructor <;> simp [hcase]
    have hl : (⟨[⟨"b"⟩, ⟨"A"⟩]⟩ : FiniteSet Caseless).Distinct := by decide +kernel
    have hplain : SameMembers keySet.members [⟨"b"⟩, ⟨"A"⟩] := by
      rw [hmembers]
      constructor <;> simp [hcase]
    obtain ⟨hequality, -, hhashed⟩ :=
      logicalEquality_of_reachable.2.2.2.2.2.2 (η := HasherChoice) (α := Caseless)
    have hab := (hequality.beq_iff ha hb).mpr hsame
    exact ⟨ha, hb, by decide +kernel, hab, hsame, hequality.hashCode_eq ha hb hab, hhashed ha hl hplain⟩

end LinearProbing
