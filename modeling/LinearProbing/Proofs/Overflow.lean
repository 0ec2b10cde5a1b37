import LinearProbing.Hash.Choice
import LinearProbing.Proofs.Reachable

/-!
# LinearProbing.Proofs.Overflow

**What a table that could not grow is left as.** An insertion puts its entry into a slot and counts it
before the table is to grow. Where no capacity has room for one more entry, which happens early with a
small load factor, the call fails and the entry stays: the table then has one entry more than its threshold
allows. All else of the invariant is kept (`growth_outcome_of_run`), so the table can be used as long as
some slot is vacant; but every further insertion fails in the same way and takes one more slot, and in a
full table the search for an absent key never ends.

A compaction leaves such a table as it is: what the entries need is more than any table may have. If it is out
of the range of sizes altogether, the compaction fails as well, by an overflow.
-/

namespace LinearProbing

/-- **What each call does to the table** of the five containers, and a compaction in particular, in every state
that is reached, also when insertions have failed to grow the table before. -/
theorem growth_outcome_of_run (config : TableConfig) :
    (∀ {κ ν : Type} [SignedWord κ] [SignedWord ν] {missing : ν}
        {m reached : WordMap κ ν}, WordMap.ofConfig config missing = .ok m →
      Reaches WordMap.table WordMap.Operation.perform m reached →
      (∀ op : WordMap.Operation κ ν,
        Table.GrowthOutcome (inlineLayout missing) SignedWord.spread reached.table
          (op.perform reached).state.table (op.perform reached).result) ∧
      Table.CompactionOutcome reached.table (WordMap.Operation.compact.perform reached).state.table
        (WordMap.Operation.compact.perform reached).result) ∧
    (∀ {κ ν : Type} [SignedWord κ] [BEq ν] {policy : NullPolicy} {m reached : WordKeyMap κ ν},
        ValueMap.ofConfig config policy {} = .ok m →
      Reaches ValueMap.table ValueMap.Operation.perform m reached →
      (∀ op : ValueMap.Operation (WordSlot κ ν) Spreading κ ν,
        Table.GrowthOutcome (EntrySlot.layout : EntryLayout (WordSlot κ ν) κ (Option ν))
          SignedWord.spread reached.table (op.perform reached).state.table
          (op.perform reached).result) ∧
      Table.CompactionOutcome reached.table (ValueMap.Operation.compact.perform reached).state.table
        (ValueMap.Operation.compact.perform reached).result) ∧
    (∀ {η κ ν : Type} [Hasher η κ] [BEq κ] [EquivBEq κ] [BEq ν] {hasher : η},
      Hasher.Lawful hasher κ → ∀ {policy : NullPolicy} {m reached : KeyMap η κ ν},
      ValueMap.ofConfig config policy ⟨hasher⟩ = .ok m →
      Reaches ValueMap.table ValueMap.Operation.perform m reached →
      (∀ op : ValueMap.Operation (Option (Bucket κ ν)) (Mixed η) κ ν,
        Table.GrowthOutcome (EntrySlot.layout : EntryLayout (Option (Bucket κ ν)) κ (Option ν))
          (fun key => mix64 (Hasher.rawHash hasher key)) reached.table
          (op.perform reached).state.table (op.perform reached).result) ∧
      Table.CompactionOutcome reached.table (ValueMap.Operation.compact.perform reached).state.table
        (ValueMap.Operation.compact.perform reached).result) ∧
    (∀ {α : Type} [SignedWord α] {s reached : WordSet α},
      WordSet.ofConfig config = .ok s →
      Reaches (fun s => s.inner.table) WordSet.Operation.perform s reached →
      (∀ op : WordSet.Operation α,
        Table.GrowthOutcome (MemberSlot.layout : EntryLayout α α Unit) SignedWord.spread
          reached.inner.table (op.perform reached).state.inner.table (op.perform reached).result) ∧
      Table.CompactionOutcome reached.inner.table
        (WordSet.Operation.compact.perform reached).state.inner.table
        (WordSet.Operation.compact.perform reached).result) ∧
    (∀ {η α : Type} [Hasher η α] [BEq α] [EquivBEq α] {hasher : η}, Hasher.Lawful hasher α →
      ∀ {s reached : KeySet η α}, MemberSet.ofConfig config ⟨hasher⟩ = .ok s →
      Reaches MemberSet.table MemberSet.Operation.perform s reached →
      (∀ op : MemberSet.Operation (Option (HashedMember α)) (Mixed η) α,
        Table.GrowthOutcome (MemberSlot.layout : EntryLayout (Option (HashedMember α)) α Unit)
          (fun x => mix64 (Hasher.rawHash hasher x)) reached.table (op.perform reached).state.table
          (op.perform reached).result) ∧
      Table.CompactionOutcome reached.table (MemberSet.Operation.compact.perform reached).state.table
        (MemberSet.Operation.compact.perform reached).result) := by
  refine ⟨?_, ?_, ?_, ?_, ?_⟩
  · intro κ ν _ _ missing m reached hm hreached
    obtain ⟨M, hM⟩ := WordMap.exists_of_reaches hm hreached
    have hprobing := WordMap.probing (κ := κ) missing
    exact ⟨hprobing.outcome (inlineLayout_lawful missing) hM,
      Table.compactionOutcome (E := reached.layout) (hprobing.usable hM).sizing fun _ => Answer.nothing⟩
  · intro κ ν _ _ policy m reached hm hreached
    have hE : ValueMap.LawfulSlots (WordSlot κ ν) ({} : Spreading) := wordSlot_lawful {}
    obtain ⟨M, hM⟩ := ValueMap.exists_of_reaches hE hm hreached
    have hprobing := ValueMap.probing hE policy
    exact ⟨hprobing.outcome hE hM,
      Table.compactionOutcome (E := EntrySlot.layout) (hprobing.usable hM).sizing fun _ => Answer.nothing⟩
  · intro η κ ν _ _ _ _ hasher hlawful policy m reached hm hreached
    have hE : ValueMap.LawfulSlots (Option (Bucket κ ν)) (⟨hasher⟩ : Mixed η) := bucket_lawful hlawful
    obtain ⟨M, hM⟩ := ValueMap.exists_of_reaches hE hm hreached
    have hprobing := ValueMap.probing hE policy
    exact ⟨hprobing.outcome hE hM,
      Table.compactionOutcome (E := EntrySlot.layout) (hprobing.usable hM).sizing fun _ => Answer.nothing⟩
  · intro α _ s reached hs hreached
    obtain ⟨S, hS⟩ := WordSet.exists_of_reaches hs hreached
    have hprobing := WordSet.probing (α := α)
    exact ⟨hprobing.outcome (wordMember_lawful {}) hS,
      Table.compactionOutcome (E := MemberSlot.layout) (hprobing.usable hS).sizing fun _ => Answer.nothing⟩
  · intro η α _ _ _ hasher hlawful s reached hs hreached
    have hE : MemberSet.LawfulSlots (Option (HashedMember α)) (⟨hasher⟩ : Mixed η) _ :=
      hashedMember_lawful hlawful
    obtain ⟨S, hS⟩ := MemberSet.exists_of_reaches hE hs hreached
    have hprobing := MemberSet.probing hE
    exact ⟨hprobing.outcome hE hS,
      Table.compactionOutcome (E := MemberSlot.layout) (hprobing.usable hS).sizing fun _ => Answer.nothing⟩

/-- The least load factor of all. -/
theorem least_inOpenUnitInterval : (⟨1⟩ : Single).InOpenUnitInterval := by
  have hvalue : (⟨1⟩ : Single).value = 1 / 2 ^ 149 := by
    have hm : (⟨1⟩ : Single).mantissa = 1 := by decide
    have he : (⟨1⟩ : Single).exponent = -149 := by decide
    have hn : (⟨1⟩ : Single).isNegative = false := by decide
    rw [Single.value, hn, if_neg (by decide), Single.magnitude, hm, he]
    norm_num
  refine ⟨by decide, ?_, ?_⟩ <;> rw [hvalue] <;> norm_num

theorem ofConfig_least :
    Sizing.ofConfig { loadFactor := ⟨1⟩ } = .ok (.ofCapacity minCapacity ⟨1⟩) := by
  rw [Sizing.ofConfig, if_pos least_inOpenUnitInterval]
  rfl

/-- With the least load factor, the first insertion into a map fails and leaves its entry there. -/
theorem insert_least_leaves_entry :
    let m : WordMap Int32 Int32 := .ofSizing (.ofCapacity minCapacity ⟨1⟩) .cached (-1)
    let failed := WordMap.Operation.perform (.insert 1 5) m
    WordMap.ofConfig { loadFactor := ⟨1⟩ } (-1) = .ok m ∧
      failed.result = .error .capacityOverflow ∧ failed.state.entries = [(1, 5)] ∧
      failed.state.table.sizing.threshold < failed.state.len ∧
      ¬ failed.state.table.Invariant (inlineLayout (-1)) SignedWord.spread := by
  intro m failed
  have hm : WordMap.ofConfig { loadFactor := ⟨1⟩ } (-1) = .ok m := by
    rw [WordMap.ofConfig, ofConfig_least]
    rfl
  have hfailed : failed.result = .error .capacityOverflow ∧ failed.state.entries = [(1, 5)] ∧
      failed.state.table.sizing.threshold < failed.state.len := by
    decide +kernel
  obtain ⟨hresult, hentries, hlen⟩ := hfailed
  exact ⟨hm, hresult, hentries, hlen, fun h => absurd h.len_le (Nat.not_le_of_lt hlen)⟩

/-- With the least load factor no capacity has room for an entry, and every insertion fails. The eighth
one leaves a map full, so that the search for a ninth key does not end; a compaction before that overflows. -/
theorem growth_outcome_of_run_least :
    let config : TableConfig := { loadFactor := ⟨1⟩ }
    let sizing : Sizing := .ofCapacity minCapacity ⟨1⟩
    let hasher := HasherChoice.constant 7
    let words : WordMap Int32 Int32 := .ofSizing sizing .cached (-1)
    let wordKeys : WordKeyMap Int64 Int32 := .ofSizing sizing .cached .nullable {}
    let keys : KeyMap HasherChoice String Int32 := .ofSizing sizing .cached .nonNull ⟨hasher⟩
    let wordSet : WordSet Int32 := { inner := .ofSizing sizing .cached {}, marked := false }
    let keySet : KeySet HasherChoice String := .ofSizing sizing .cached ⟨hasher⟩
    let before : List (WordMap.Operation Int32 Int32) := [.erase 1, .compact]
    let inserts : List (WordMap.Operation Int32 Int32) :=
      [.insert 1 5, .insert 2 6, .insert 3 7, .insert 4 8, .insert 5 9, .insert 6 10, .insert 7 11]
    let start := finalState WordMap.Operation.perform before words
    let reached := finalState WordMap.Operation.perform inserts start
    let last := WordMap.Operation.perform (.insert 8 12) reached
    let compacted := WordMap.Operation.perform .compact reached
    let lastWordKey := ValueMap.Operation.perform (.insertNull 1) wordKeys
    let lastKey := ValueMap.Operation.perform (.insert "a" 1) keys
    let lastWord := WordSet.Operation.perform (.insert 3) wordSet
    let lastMember := MemberSet.Operation.perform (.insert "a") keySet
    Hasher.Lawful hasher String ∧
      (WordMap.ofConfig config (-1) = .ok words ∧
        Reaches WordMap.table WordMap.Operation.perform words reached ∧
        last.result = .error .capacityOverflow ∧ last.state.len = last.state.capacity ∧
        Table.GrowthOutcome (inlineLayout (-1)) SignedWord.spread reached.table last.state.table
          last.result ∧
        compacted.result = .error .capacityOverflow ∧
        Table.CompactionOutcome reached.table compacted.state.table compacted.result) ∧
      (ValueMap.ofConfig config .nullable {} = .ok wordKeys ∧
        lastWordKey.result = .error .capacityOverflow ∧
        Table.GrowthOutcome EntrySlot.layout SignedWord.spread wordKeys.table lastWordKey.state.table
          lastWordKey.result) ∧
      (ValueMap.ofConfig config .nonNull ⟨hasher⟩ = .ok keys ∧
        lastKey.result = .error .capacityOverflow ∧
        Table.GrowthOutcome EntrySlot.layout (fun key => mix64 (Hasher.rawHash hasher key)) keys.table
          lastKey.state.table lastKey.result) ∧
      (WordSet.ofConfig config = .ok wordSet ∧ lastWord.result = .error .capacityOverflow ∧
        Table.GrowthOutcome MemberSlot.layout SignedWord.spread wordSet.inner.table
          lastWord.state.inner.table lastWord.result) ∧
      (MemberSet.ofConfig config ⟨hasher⟩ = .ok keySet ∧
        lastMember.result = .error .capacityOverflow ∧
        Table.GrowthOutcome MemberSlot.layout (fun x => mix64 (Hasher.rawHash hasher x)) keySet.table
          lastMember.state.table lastMember.result) := by
  intro config sizing hasher words wordKeys keys wordSet keySet before inserts start reached last compacted
    lastWordKey lastKey lastWord lastMember
  have hlawful : Hasher.Lawful hasher String := fun a b h => by rw [eq_of_beq h]
  refine ⟨hlawful, ?_, ?_, ?_, ?_, ?_⟩
  · have hwords : WordMap.ofConfig config (-1) = .ok words := by
      rw [WordMap.ofConfig, ofConfig_least]
      rfl
    have hrun : NoOverflow (trace WordMap.Operation.perform before words) ∧
        (∀ c ∈ trace WordMap.Operation.perform inserts start,
          c.state.table.len < c.state.table.slots.size) ∧
        last.result = .error .capacityOverflow ∧ last.state.len = last.state.capacity := by
      decide +kernel
    obtain ⟨hno, hvacant, hlast, hfull⟩ := hrun
    have hreached : Reaches WordMap.table WordMap.Operation.perform words reached :=
      Reaches.calls (.run hno) hvacant
    obtain ⟨houtcome, hcompaction⟩ := (growth_outcome_of_run config).1 hwords hreached
    exact ⟨hwords, hreached, hlast, hfull, houtcome (.insert 8 12), by decide +kernel, hcompaction⟩
  · have hwordKeys : ValueMap.ofConfig config .nullable {} = .ok wordKeys := by
      rw [ValueMap.ofConfig, ofConfig_least]
      rfl
    have hlast : lastWordKey.result = .error .capacityOverflow := by decide +kernel
    have houtcome := ((growth_outcome_of_run config).2.1 hwordKeys (reaches_self _ _ _)).1 (.insertNull 1)
    exact ⟨hwordKeys, hlast, houtcome⟩
  · have hkeys : ValueMap.ofConfig config .nonNull ⟨hasher⟩ = .ok keys := by
      rw [ValueMap.ofConfig, ofConfig_least]
      rfl
    have hlast : lastKey.result = .error .capacityOverflow := by decide +kernel
    have houtcome :=
      ((growth_outcome_of_run config).2.2.1 hlawful hkeys (reaches_self _ _ _)).1 (.insert "a" 1)
    exact ⟨hkeys, hlast, houtcome⟩
  · have hwordSet : WordSet.ofConfig config = .ok wordSet := by
      rw [WordSet.ofConfig, MemberSet.ofConfig, ofConfig_least]
      rfl
    have hlast : lastWord.result = .error .capacityOverflow := by decide +kernel
    have houtcome := ((growth_outcome_of_run config).2.2.2.1 hwordSet (reaches_self _ _ _)).1 (.insert 3)
    exact ⟨hwordSet, hlast, houtcome⟩
  · have hkeySet : MemberSet.ofConfig config ⟨hasher⟩ = .ok keySet := by
      rw [MemberSet.ofConfig, ofConfig_least]
      rfl
    have hlast : lastMember.result = .error .capacityOverflow := by decide +kernel
    have houtcome :=
      ((growth_outcome_of_run config).2.2.2.2 hlawful hkeySet (reaches_self _ _ _)).1 (.insert "a")
    exact ⟨hkeySet, hlast, houtcome⟩

end LinearProbing
