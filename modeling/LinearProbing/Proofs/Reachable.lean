import LinearProbing.Hash.Choice
import LinearProbing.Hash.Polynomial
import LinearProbing.Proofs.Probing
import LinearProbing.Proofs.WordMap.Represents
import LinearProbing.Proofs.WordSet.Represents

/-!
# LinearProbing.Proofs.Reachable

**The table invariant in every reachable state** of the five containers over a probing table: maps of
words, maps from words to values, maps from keys, sets of words and sets of keys. It holds after every run
of operations on a new container, if no insertion fails to grow the table (`invariant_of_run`); functions
of the caller may panic.

Operations that only read (iterators, comparisons, hash codes, texts) cannot change a container: in this
library they are functions of it that give no new one.
-/

namespace LinearProbing

/-! ### The five containers -/

theorem WordMap.probing {κ ν : Type} [SignedWord κ] [SignedWord ν] (missing : ν) :
    Probing (inlineLayout missing) SignedWord.spread WordMap.table
      (Operation.perform (κ := κ) (ν := ν)) (Operation.Allows missing) (Represents missing)
      (Overfull missing) where
  step op _ _ h := h.perform op
  usable h := h.table.toUsable
  of_usable h husable := ⟨h.missing_eq, husable, h.table.entries⟩
  overfull h := h.table
  of_overfull h hlt := ⟨⟨_⟩, h.missing_eq, h.table.represents hlt⟩

theorem ValueMap.probing {σ η κ ν : Type} [EntrySlot σ κ ν] [KeyHash η κ] [BEq κ] [EquivBEq κ] [BEq ν]
    {hashing : η} (hE : LawfulSlots σ hashing) (policy : NullPolicy) :
    Probing (EntrySlot.layout : EntryLayout σ κ (Option ν)) (KeyHash.hash hashing) ValueMap.table
      (Operation.perform (σ := σ) (η := η)) (Operation.Allows policy) (Represents hashing policy)
      (Overfull hashing policy) where
  step op _ _ h := h.perform hE op
  usable h := h.table.toUsable
  of_usable h husable := ⟨h.hashing_eq, h.policy_eq, husable, h.table.entries⟩
  overfull h := h.table
  of_overfull h hlt := ⟨⟨_⟩, h.hashing_eq, h.policy_eq, h.table.represents hlt⟩

theorem MemberSet.probing {σ η α : Type} [MemberSlot σ α] [KeyHash η α] [BEq α] [EquivBEq α]
    {hashing : η} (hE : LawfulSlots σ hashing EntryLayout.AnyEntry) :
    Probing (MemberSlot.layout : EntryLayout σ α Unit) (KeyHash.hash hashing) MemberSet.table
      (Operation.perform (σ := σ) (η := η)) Operation.Allows (Represents hashing)
      (Overfull hashing) where
  step op _ _ h := h.perform hE op
  usable h := h.table.toUsable
  of_usable h husable := ⟨h.hashing_eq, husable, h.table.entries⟩
  overfull h := h.table
  of_overfull {_ s} h hlt := by
    refine ⟨⟨s.members⟩, h.hashing_eq, ?_⟩
    have hrepresents := h.table.represents hlt
    rwa [← map_asEntry_map_fst (s.table.entries _)] at hrepresents

theorem WordSet.probing {α : Type} [SignedWord α] :
    Probing (MemberSlot.layout : EntryLayout α α Unit) SignedWord.spread (fun s => s.inner.table)
      (Operation.perform (α := α)) Operation.Allows Represents Overfull where
  step op _ _ h := h.perform op
  usable h := h.inner.table.toUsable
  of_usable h husable := ⟨⟨h.inner.hashing_eq, husable, h.inner.table.entries⟩, h.members⟩
  overfull h := h.table
  of_overfull {_ s} h hlt := by
    refine ⟨⟨s.members⟩, ⟨rfl, ?_⟩, List.Perm.refl _⟩
    have hrepresents := h.table.represents hlt
    rwa [← map_asEntry_map_fst (s.inner.table.entries _)] at hrepresents

/-! ### What they stand for -/

theorem WordMap.exists_of_reaches {κ ν : Type} [SignedWord κ] [SignedWord ν] {config : TableConfig}
    {missing : ν} {m reached : WordMap κ ν} (hm : ofConfig config missing = .ok m)
    (hreached : Reaches table Operation.perform m reached) :
    ∃ M, reached.Represents missing False M :=
  (WordMap.probing missing).exists_of_reaches (represents_of_ofConfig hm) hreached

theorem ValueMap.exists_of_reaches {σ η κ ν : Type} [EntrySlot σ κ ν] [KeyHash η κ] [BEq κ]
    [EquivBEq κ] [BEq ν] {hashing : η} (hE : LawfulSlots σ hashing) {config : TableConfig}
    {policy : NullPolicy} {m reached : ValueMap σ η κ ν} (hm : ofConfig config policy hashing = .ok m)
    (hreached : Reaches table Operation.perform m reached) :
    ∃ M, reached.Represents hashing policy False M :=
  (ValueMap.probing hE policy).exists_of_reaches (represents_of_ofConfig hE hm) hreached

theorem MemberSet.exists_of_reaches {σ η α : Type} [MemberSlot σ α] [KeyHash η α] [BEq α] [EquivBEq α]
    {hashing : η} (hE : LawfulSlots σ hashing EntryLayout.AnyEntry) {config : TableConfig}
    {s reached : MemberSet σ η α} (hs : ofConfig config hashing = .ok s)
    (hreached : Reaches table Operation.perform s reached) :
    ∃ S, reached.Represents hashing False S :=
  (MemberSet.probing hE).exists_of_reaches (represents_of_ofConfig hE hs) hreached

theorem WordSet.exists_of_reaches {α : Type} [SignedWord α] {config : TableConfig}
    {s reached : WordSet α} (hs : ofConfig config = .ok s)
    (hreached : Reaches (fun s => s.inner.table) Operation.perform s reached) :
    ∃ S, reached.Represents False S :=
  WordSet.probing.exists_of_reaches (represents_of_ofConfig hs) hreached

/-! ### Every run -/

/-- **The table invariant holds in every reachable state** of the five containers. A hasher must give
equal keys equal hashes; nothing else is asked of it. -/
theorem invariant_of_run :
    (∀ {κ ν : Type} [SignedWord κ] [SignedWord ν] {config : TableConfig} {missing : ν}
        {m : WordMap κ ν}, WordMap.ofConfig config missing = .ok m →
      ∀ ops : List (WordMap.Operation κ ν), NoOverflow (trace WordMap.Operation.perform ops m) →
        (finalState WordMap.Operation.perform ops m).table.Invariant (inlineLayout missing)
          SignedWord.spread) ∧
    (∀ {κ ν : Type} [SignedWord κ] [BEq ν] {config : TableConfig} {policy : NullPolicy}
        {m : WordKeyMap κ ν}, ValueMap.ofConfig config policy {} = .ok m →
      ∀ ops : List (ValueMap.Operation (WordSlot κ ν) Spreading κ ν),
        NoOverflow (trace ValueMap.Operation.perform ops m) →
          (finalState ValueMap.Operation.perform ops m).table.Invariant
            (EntrySlot.layout : EntryLayout (WordSlot κ ν) κ (Option ν)) SignedWord.spread) ∧
    (∀ {η κ ν : Type} [Hasher η κ] [BEq κ] [EquivBEq κ] [BEq ν] {hasher : η},
      Hasher.Lawful hasher κ → ∀ {config : TableConfig} {policy : NullPolicy} {m : KeyMap η κ ν},
      ValueMap.ofConfig config policy ⟨hasher⟩ = .ok m →
      ∀ ops : List (ValueMap.Operation (Option (Bucket κ ν)) (Mixed η) κ ν),
        NoOverflow (trace ValueMap.Operation.perform ops m) →
          (finalState ValueMap.Operation.perform ops m).table.Invariant
            (EntrySlot.layout : EntryLayout (Option (Bucket κ ν)) κ (Option ν))
            (fun key => mix64 (Hasher.rawHash hasher key))) ∧
    (∀ {α : Type} [SignedWord α] {config : TableConfig} {s : WordSet α},
      WordSet.ofConfig config = .ok s →
      ∀ ops : List (WordSet.Operation α), NoOverflow (trace WordSet.Operation.perform ops s) →
        (finalState WordSet.Operation.perform ops s).inner.table.Invariant
          (MemberSlot.layout : EntryLayout α α Unit) SignedWord.spread) ∧
    (∀ {η α : Type} [Hasher η α] [BEq α] [EquivBEq α] {hasher : η}, Hasher.Lawful hasher α →
      ∀ {config : TableConfig} {s : KeySet η α}, MemberSet.ofConfig config ⟨hasher⟩ = .ok s →
      ∀ ops : List (MemberSet.Operation (Option (HashedMember α)) (Mixed η) α),
        NoOverflow (trace MemberSet.Operation.perform ops s) →
          (finalState MemberSet.Operation.perform ops s).table.Invariant
            (MemberSlot.layout : EntryLayout (Option (HashedMember α)) α Unit)
            (fun x => mix64 (Hasher.rawHash hasher x))) := by
  refine ⟨?_, ?_, ?_, ?_, ?_⟩
  · intro κ ν _ _ config missing m hm ops hno
    exact (WordMap.probing missing).invariant (inlineLayout_lawful missing)
      (WordMap.represents_of_ofConfig hm) hno
  · intro κ ν _ _ config policy m hm ops hno
    have hE : ValueMap.LawfulSlots (WordSlot κ ν) ({} : Spreading) := wordSlot_lawful {}
    exact (ValueMap.probing hE policy).invariant hE (ValueMap.represents_of_ofConfig hE hm) hno
  · intro η κ ν _ _ _ _ hasher hlawful config policy m hm ops hno
    have hE : ValueMap.LawfulSlots (Option (Bucket κ ν)) (⟨hasher⟩ : Mixed η) := bucket_lawful hlawful
    exact (ValueMap.probing hE policy).invariant hE (ValueMap.represents_of_ofConfig hE hm) hno
  · intro α _ config s hs ops hno
    exact WordSet.probing.invariant (wordMember_lawful {}) (WordSet.represents_of_ofConfig hs) hno
  · intro η α _ _ _ hasher hlawful config s hs ops hno
    have hE : MemberSet.LawfulSlots (Option (HashedMember α)) (⟨hasher⟩ : Mixed η) _ :=
      hashedMember_lawful hlawful
    exact (MemberSet.probing hE).invariant hE (MemberSet.represents_of_ofConfig hE hs) hno

/-- Runs of all five containers with growth, deletions from runs of occupied slots, and panics in the
functions of the caller. The hasher gives all keys the same hash. -/
theorem invariant_of_run_colliding :
    let wordOps : List (WordMap.Operation Int32 Int32) :=
      [.insert 1 10, .insert 9 90, .insert 17 170, .insert 2 20, .insert (-1) 5, .insert 3 30,
        .erase 1, .compute 9 fun _ _ => .panics, .compact]
    let wordKeyOps : List (ValueMap.Operation (WordSlot Int64 Int32) Spreading Int64 Int32) :=
      [.insert 1 10, .insertNull 9, .compute 1 fun _ _ => .panics, .merge 9 4 fun _ _ => .panics]
    let keyOps : List (ValueMap.Operation (Option (Bucket String Int32)) (Mixed HasherChoice)
        String Int32) :=
      [.insert "a" 1, .insert "b" 2, .insert "c" 3, .compute "a" fun _ _ => .panics, .insert "d" 4,
        .insert "e" 5, .insert "f" 6, .erase "b", .insert "g" 7]
    let wordSetOps : List (WordSet.Operation Int32) :=
      [.insert (-1), .extend [1, 2, 3, 4, 5, 6], .erase 2, .cursor [.next, .next, .remove],
        .retain fun _ => .panics]
    let keySetOps : List (MemberSet.Operation (Option (HashedMember String)) (Mixed HasherChoice)
        String) :=
      [.extend ["a", "b", "c"], .take "a", .cursor [.next, .remove], .compact]
    let hasher := HasherChoice.constant 7
    let words : WordMap Int32 Int32 := .empty (-1)
    let wordKeys : WordKeyMap Int64 Int32 := .empty .nullable {}
    let keys : KeyMap HasherChoice String Int32 := .empty .nonNull ⟨hasher⟩
    let wordSet : WordSet Int32 := .empty
    let keySet : KeySet HasherChoice String := .empty ⟨hasher⟩
    Hasher.Lawful hasher String ∧
      (WordMap.ofConfig {} (-1) = .ok words ∧
        NoOverflow (trace WordMap.Operation.perform wordOps words) ∧
          (finalState WordMap.Operation.perform wordOps words).table.Invariant (inlineLayout (-1))
            SignedWord.spread) ∧
      (ValueMap.ofConfig {} .nullable {} = .ok wordKeys ∧
        NoOverflow (trace ValueMap.Operation.perform wordKeyOps wordKeys) ∧
          (finalState ValueMap.Operation.perform wordKeyOps wordKeys).table.Invariant
            EntrySlot.layout SignedWord.spread) ∧
      (ValueMap.ofConfig {} .nonNull ⟨hasher⟩ = .ok keys ∧
        NoOverflow (trace ValueMap.Operation.perform keyOps keys) ∧
          (finalState ValueMap.Operation.perform keyOps keys).table.Invariant EntrySlot.layout
            (fun key => mix64 (Hasher.rawHash hasher key))) ∧
      (WordSet.ofConfig {} = .ok wordSet ∧
        NoOverflow (trace WordSet.Operation.perform wordSetOps wordSet) ∧
          (finalState WordSet.Operation.perform wordSetOps wordSet).inner.table.Invariant
            MemberSlot.layout SignedWord.spread) ∧
      (MemberSet.ofConfig {} ⟨hasher⟩ = .ok keySet ∧
        NoOverflow (trace MemberSet.Operation.perform keySetOps keySet) ∧
          (finalState MemberSet.Operation.perform keySetOps keySet).table.Invariant
            MemberSlot.layout (fun x => mix64 (Hasher.rawHash hasher x))) := by
  intro wordOps wordKeyOps keyOps wordSetOps keySetOps hasher words wordKeys keys wordSet keySet
  have hlawful : Hasher.Lawful hasher String := fun a b h => by rw [eq_of_beq h]
  have hwords : WordMap.ofConfig {} (-1) = .ok words := WordMap.ofConfig_default _
  have hwordKeys : ValueMap.ofConfig {} .nullable {} = .ok wordKeys :=
    ValueMap.ofConfig_default _ _
  have hkeys : ValueMap.ofConfig {} .nonNull ⟨hasher⟩ = .ok keys := ValueMap.ofConfig_default _ _
  have hwordSet : WordSet.ofConfig {} = .ok wordSet := WordSet.ofConfig_default
  have hkeySet : MemberSet.ofConfig {} ⟨hasher⟩ = .ok keySet := MemberSet.ofConfig_default _
  have hwordOps : NoOverflow (trace WordMap.Operation.perform wordOps words) := by decide +kernel
  have hwordKeyOps : NoOverflow (trace ValueMap.Operation.perform wordKeyOps wordKeys) := by
    decide +kernel
  have hkeyOps : NoOverflow (trace ValueMap.Operation.perform keyOps keys) := by decide +kernel
  have hwordSetOps : NoOverflow (trace WordSet.Operation.perform wordSetOps wordSet) := by
    decide +kernel
  have hkeySetOps : NoOverflow (trace MemberSet.Operation.perform keySetOps keySet) := by
    decide +kernel
  exact ⟨hlawful,
    ⟨hwords, hwordOps, invariant_of_run.1 hwords wordOps hwordOps⟩,
    ⟨hwordKeys, hwordKeyOps, invariant_of_run.2.1 hwordKeys wordKeyOps hwordKeyOps⟩,
    ⟨hkeys, hkeyOps, invariant_of_run.2.2.1 hlawful hkeys keyOps hkeyOps⟩,
    ⟨hwordSet, hwordSetOps, invariant_of_run.2.2.2.1 hwordSet wordSetOps hwordSetOps⟩,
    ⟨hkeySet, hkeySetOps, invariant_of_run.2.2.2.2 hlawful hkeySet keySetOps hkeySetOps⟩⟩

end LinearProbing
