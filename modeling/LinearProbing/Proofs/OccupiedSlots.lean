import LinearProbing.Proofs.Contents
import LinearProbing.Proofs.Slots.Occupancy

/-!
# LinearProbing.Proofs.OccupiedSlots

**Which slots of a container are occupied does not depend on its history.** Two containers with the same
capacity and the same keys may have got them in any order, may have removed others and may have grown and
been compacted in between: the keys then sit in different slots, but the same slots are occupied
(`occupied_of_reachable`).

What the keys have in common are their hashes, so the homes of the occupants are the same up to order
(`WellFormed.occupied_eq`), and these decide which slots are occupied (`Layout.Chained.vacantAt_eq`).
-/

namespace LinearProbing

/-! ### The same keys -/

section SameKeys

variable {α : Type} [BEq α]

instance {a b : List α} : Decidable (SameMembers a b) :=
  decidable_of_iff ((∀ x ∈ a, ∃ y ∈ b, (x == y) = true) ∧ ∀ y ∈ b, ∃ x ∈ a, (x == y) = true)
    ⟨fun h => ⟨h.1, h.2⟩, fun h => ⟨h.left, h.right⟩⟩

variable [EquivBEq α]

/-- Lists have the same members if they contain the same values. -/
theorem sameMembers_iff_contains {a b : List α} :
    SameMembers a b ↔ ∀ x, a.contains x = b.contains x := by
  constructor
  · -- equal members are contained in the same lists, as equality is an equivalence
    intro h x
    rw [Bool.eq_iff_iff, List.contains_iff_exists_mem_beq, List.contains_iff_exists_mem_beq]
    constructor
    · rintro ⟨y, hy, hxy⟩
      obtain ⟨z, hz, hyz⟩ := h.left y hy
      exact ⟨z, hz, BEq.trans hxy hyz⟩
    · rintro ⟨y, hy, hxy⟩
      obtain ⟨z, hz, hzy⟩ := h.right y hy
      exact ⟨z, hz, BEq.trans hxy (BEq.symm hzy)⟩
  · intro h
    constructor
    · intro x hx
      refine List.contains_iff_exists_mem_beq.mp ?_
      rw [← h x]
      exact List.contains_iff_exists_mem_beq.mpr ⟨x, hx, BEq.rfl⟩
    · intro y hy
      have hmem : a.contains y = true := by
        rw [h y]
        exact List.contains_iff_exists_mem_beq.mpr ⟨y, hy, BEq.rfl⟩
      obtain ⟨x, hx, hyx⟩ := List.contains_iff_exists_mem_beq.mp hmem
      exact ⟨x, hx, BEq.symm hyx⟩

/-- A map contains the keys of its entries. -/
theorem FiniteMap.contains_eq_contains_keys {β : Type} (M : FiniteMap α β) (key : α) :
    M.contains key = (M.entries.map Prod.fst).contains key := by
  rw [FiniteMap.contains, List.contains_eq_any_beq, List.any_map]
  refine congrArg _ (funext fun e => ?_)
  exact BEq.comm

end SameKeys

/-! ### Tables -/

/-- The occupants of an arranged array have the hashes of the keys. -/
theorem EntryLayout.Arranged.map_hash_occupants {σ κ ν : Type} [BEq κ] {E : EntryLayout σ κ ν}
    {hash : κ → UInt64} {slots : Array σ} (h : E.Arranged hash slots) :
    (E.layout.occupants slots).map E.layout.hash =
      (E.entries slots).map fun e => (hash e.1).toNat := by
  rw [entries_eq_occupants, List.map_filterMap, ← List.filterMap_eq_map]
  refine List.filterMap_congr fun s hs => ?_
  obtain ⟨i, -, hocc, hslot⟩ := Layout.mem_occupants_iff.mp hs
  obtain ⟨e, he⟩ := vacantAt_eq_false_iff.mp hocc
  rw [entryAt?, hslot] at he
  rw [he, Option.map_some, ← h.hashed s hs e he]
  rfl

namespace Table

variable {σ σ' κ ν ν' : Type}

/-- The indices of the occupied slots. -/
def occupied (E : EntryLayout σ κ ν) (t : Table σ) : Finset Nat :=
  (Finset.range t.slots.size).filter fun i => (t.entryAt? E i).isSome

variable [BEq κ] [EquivBEq κ] {E : EntryLayout σ κ ν} {E' : EntryLayout σ' κ ν'} {hash : κ → UInt64}
variable {t : Table σ} {u : Table σ'}

/-- Equal keys have equal hashes, so the same keys are the same hashes up to order. -/
theorem map_hash_perm {a b : List κ} (hcongr : ∀ x y : κ, (x == y) = true → hash x = hash y)
    (ha : Apart (fun x y => (x == y) = true) a) (hb : Apart (fun x y => (x == y) = true) b)
    (h : SameMembers a b) : (a.map hash).Perm (b.map hash) := by
  obtain ⟨matched, hperm, hmatched⟩ := h.exists_matching beq_equivalence ha hb
  refine List.Perm.trans (.of_eq ?_) (hperm.map hash).symm
  clear ha hb h hperm
  induction hmatched with
  | nil => rfl
  | cons hxy _ ih => rw [List.map_cons, List.map_cons, hcongr _ _ hxy, ih]

omit [EquivBEq κ] in
theorem WellFormed.apart_keys (h : t.WellFormed E hash) :
    Apart (fun x y => (x == y) = true) ((t.entries E).map Prod.fst) :=
  List.pairwise_map.mpr (List.Pairwise.imp (fun hne => by simp [hne]) h.arranged.distinct)

/-- **Tables of one capacity with the same keys have the same slots occupied.** -/
theorem WellFormed.occupied_eq (hcongr : ∀ x y : κ, (x == y) = true → hash x = hash y)
    (ht : t.WellFormed E hash) (hu : u.WellFormed E' hash) (hcapacity : t.capacity = u.capacity)
    (hkeys : SameMembers ((t.entries E).map Prod.fst) ((u.entries E').map Prod.fst)) :
    t.occupied E = u.occupied E' := by
  have hsize : t.slots.size = u.slots.size := ht.size_eq.trans (hcapacity.trans hu.size_eq.symm)
  -- equal keys have equal hashes, so both tables hold the same number of entries of every home
  have hhashes : ((E.layout.occupants t.slots).map E.layout.hash).Perm
      ((E'.layout.occupants u.slots).map E'.layout.hash) := by
    rw [ht.arranged.map_hash_occupants, hu.arranged.map_hash_occupants]
    have := (map_hash_perm hcongr ht.apart_keys hu.apart_keys hkeys).map UInt64.toNat
    simp only [List.map_map] at this
    exact this
  ext i
  rw [occupied, occupied, Finset.mem_filter, Finset.mem_filter, Finset.mem_range, Finset.mem_range, hsize]
  -- which slots are taken depends on the homes alone, not on the order of arrival
  refine and_congr_right fun hi => ?_
  have hvacant := ht.arranged.chained.vacantAt_eq hu.arranged.chained hsize hhashes (hsize ▸ hi)
  rw [Layout.vacantAt, Layout.vacantAt, EntryLayout.layout, EntryLayout.layout] at hvacant
  rw [← Option.not_isNone, ← Option.not_isNone]
  exact iff_of_eq (congrArg (fun b => (!b) = true) hvacant)

end Table

/-! ### Containers -/

/-- Containers of one capacity with the same keys have the same slots occupied, however they were
reached. -/
def HistoryIndependent {τ κ : Type} (reached : τ → Prop) (capacity : τ → Nat) (contains : τ → κ → Bool)
    (occupied : τ → Finset Nat) : Prop :=
  ∀ {a b}, reached a → reached b → capacity a = capacity b → (∀ key, contains a key = contains b key) →
    occupied a = occupied b

namespace WordMap

variable {κ ν : Type} [SignedWord κ] [SignedWord ν] {a b : WordMap κ ν}

theorem Reachable.sameKeys_iff (ha : a.Reachable) (hb : b.Reachable) :
    SameMembers (a.entries.map Prod.fst) (b.entries.map Prod.fst) ↔
      ∀ key, a.contains key = b.contains key := by
  have hcontains : ∀ {m : WordMap κ ν}, m.Reachable → ∀ key,
      m.contains key = (m.entries.map Prod.fst).contains key := by
    intro m hm key
    obtain ⟨_, hm⟩ := hm.represents
    rw [contains, hm.get?_eq, ← FiniteMap.contains_eq, FiniteMap.contains_eq_contains_keys]
  simp only [hcontains ha, hcontains hb, sameMembers_iff_contains]

theorem historyIndependent :
    HistoryIndependent (fun m : WordMap κ ν => m.Reachable) capacity contains
      fun m => m.table.occupied m.layout := by
  intro a b ha hb hcapacity hkeys
  have hsame := (ha.sameKeys_iff hb).mpr hkeys
  obtain ⟨_, rfl, ha⟩ := ha.represents
  obtain ⟨_, rfl, hb⟩ := hb.represents
  exact Table.WellFormed.occupied_eq (inlineLayout_lawful a.missing).hash_congr ha.toWellFormed
    hb.toWellFormed hcapacity hsame

end WordMap

namespace ValueMap

variable {σ η κ ν : Type} [EntrySlot σ κ ν] [KeyHash η κ] [BEq κ] [EquivBEq κ] [BEq ν]
variable {lawful : η → Prop} {policy policy' : NullPolicy} {a b : ValueMap σ η κ ν}

theorem Reachable.sameKeys_iff (hlawful : ∀ hashing, lawful hashing → LawfulSlots σ hashing)
    (ha : a.Reachable lawful policy) (hb : b.Reachable lawful policy') :
    SameMembers (a.entries.map Prod.fst) (b.entries.map Prod.fst) ↔
      ∀ key, a.contains key = b.contains key := by
  have hcontains : ∀ {m : ValueMap σ η κ ν} {policy}, m.Reachable lawful policy → ∀ key,
      m.contains key = (m.entries.map Prod.fst).contains key := by
    intro m policy hm key
    obtain ⟨hashing, hhashing, hm⟩ := hm.represents hlawful
    rw [hm.contains_eq (hlawful hashing hhashing), FiniteMap.contains_eq_contains_keys]
  simp only [hcontains ha, hcontains hb, sameMembers_iff_contains]

theorem historyIndependent (hlawful : ∀ hashing, lawful hashing → LawfulSlots σ hashing) (hashing : η) :
    HistoryIndependent
      (fun m : ValueMap σ η κ ν => m.hashing = hashing ∧ ∃ policy, m.Reachable lawful policy)
      capacity contains fun m => m.table.occupied m.layout := by
  rintro a b ⟨rfl, _, ha⟩ ⟨hhashing, _, hb⟩ hcapacity hkeys
  have hsame := (ha.sameKeys_iff hlawful hb).mpr hkeys
  obtain ⟨_, hlawfulHashing, rfl, -, ha⟩ := ha.represents hlawful
  obtain ⟨_, -, rfl, -, hb⟩ := hb.represents hlawful
  rw [hhashing] at hb
  exact Table.WellFormed.occupied_eq (hlawful _ hlawfulHashing).hash_congr ha.toWellFormed
    hb.toWellFormed hcapacity hsame

end ValueMap

namespace PairMap

variable {ν : Type} [BEq ν] {a b : PairMap ν}

/-- The words that stand for the pairs are the keys of the map inside. -/
theorem Reachable.keys_inner (h : a.Reachable) :
    a.inner.entries.map Prod.fst = (a.entries.map Prod.fst).map keyOf := by
  rw [h.represents.2, List.map_map, List.map_map, List.map_map]
  rfl

theorem Reachable.sameKeys_iff (ha : a.Reachable) (hb : b.Reachable) :
    SameMembers (a.entries.map Prod.fst) (b.entries.map Prod.fst) ↔
      ∀ pair, a.contains pair = b.contains pair := by
  have hcontains : ∀ {m : PairMap ν}, m.Reachable → ∀ pair,
      m.contains pair = (m.entries.map Prod.fst).contains pair := by
    intro m hm pair
    rw [contains, hm.represents.1.contains_eq (wordSlot_lawful {}), FiniteMap.contains_eq_contains_keys,
      hm.keys_inner, List.contains_eq_any_beq, List.contains_eq_any_beq, List.any_map]
    exact congrArg _ (funext fun _ => keyOf_beq_keyOf ..)
  simp only [hcontains ha, hcontains hb, sameMembers_iff_contains]

theorem historyIndependent :
    HistoryIndependent (fun m : PairMap ν => m.Reachable) capacity contains
      fun m => m.inner.table.occupied m.inner.layout := by
  intro a b ha hb hcapacity hkeys
  have hsame := (ha.sameKeys_iff hb).mpr hkeys
  have hinner : SameMembers (a.inner.entries.map Prod.fst) (b.inner.entries.map Prod.fst) := by
    rw [ha.keys_inner, hb.keys_inner, SameMembers, SameElements.map_iff]
    simpa only [keyOf_beq_keyOf] using hsame
  exact Table.WellFormed.occupied_eq (wordSlot_lawful (ν := ν) {}).hash_congr
    ha.represents.1.table.toWellFormed hb.represents.1.table.toWellFormed hcapacity hinner

end PairMap

theorem Tally.historyIndependent {κ ν : Type} [SignedWord κ] [SignedWord ν] :
    HistoryIndependent (fun t : Tally κ ν => t.Reachable) Tally.capacity Tally.contains
      fun t => t.counts.table.occupied t.counts.layout :=
  fun ha hb => WordMap.historyIndependent ha.counts hb.counts

namespace WordSet

variable {α : Type} [SignedWord α] {a b : WordSet α}

theorem Reachable.sameKeys_iff (ha : a.Reachable) (hb : b.Reachable) :
    SameMembers a.members b.members ↔ ∀ x, a.contains x = b.contains x := by
  rw [ha.contains_eq, hb.contains_eq, sameMembers_iff_contains]

/-- Only minus one can be a member without being in the table. -/
theorem mem_inner_iff {x : α} :
    x ∈ a.inner.members ↔ x ∈ a.members ∧ x ≠ SignedWord.minusOne := by
  rw [members, List.mem_append, mem_marker]
  constructor
  · exact fun hx => ⟨Or.inl hx, ne_of_mem_of_not_mem hx minusOne_notMem_inner⟩
  · rintro ⟨hx | ⟨hx, -⟩, hne⟩
    · exact hx
    · exact absurd hx hne

theorem historyIndependent :
    HistoryIndependent (fun s : WordSet α => s.Reachable) capacity contains
      fun s => s.inner.table.occupied s.inner.layout := by
  intro a b ha hb hcapacity hkeys
  have hsame := (ha.sameKeys_iff hb).mpr hkeys
  have hinner : SameMembers a.inner.members b.inner.members := by
    refine sameMembers_iff_contains.mpr fun x => ?_
    have hx := sameMembers_iff_contains.mp hsame x
    rw [Bool.eq_iff_iff, List.contains_iff_mem, List.contains_iff_mem] at hx ⊢
    rw [mem_inner_iff, mem_inner_iff, hx]
  exact Table.WellFormed.occupied_eq (wordMember_lawful {}).hash_congr
    ha.represents.inner.table.toWellFormed hb.represents.inner.table.toWellFormed hcapacity hinner

end WordSet

namespace KeySet

variable {η α : Type} [Hasher η α] [BEq α] [EquivBEq α] {a b : KeySet η α}

theorem Reachable.sameKeys_iff (ha : Reachable a) (hb : Reachable b) :
    SameMembers a.members b.members ↔ ∀ x, MemberSet.contains a x = MemberSet.contains b x := by
  rw [ha.contains_eq, hb.contains_eq, sameMembers_iff_contains]

theorem historyIndependent (hashing : Mixed η) :
    HistoryIndependent (fun s : KeySet η α => s.hashing = hashing ∧ Reachable s) MemberSet.capacity
      MemberSet.contains fun s => s.table.occupied s.layout := by
  rintro a b ⟨rfl, ha⟩ ⟨hhashing, hb⟩ hcapacity hkeys
  have hsame := (ha.sameKeys_iff hb).mpr hkeys
  obtain ⟨_, hlawful, ha, htable⟩ := ha.represents
  obtain ⟨_, -, hb, htable'⟩ := hb.represents
  rw [← hb, hhashing, ha] at htable'
  exact Table.WellFormed.occupied_eq (hashedMember_lawful hlawful).hash_congr htable.toWellFormed
    htable'.toWellFormed hcapacity hsame

end KeySet

/-- **Which slots are occupied does not depend on the history**, in every container over a probing table:
any two that are reached and have the same capacity and the same keys have the same slots occupied. Where
keys have a hasher, the two have the same one. -/
theorem occupied_of_reachable :
    (∀ {κ ν : Type} [SignedWord κ] [SignedWord ν],
      HistoryIndependent (fun m : WordMap κ ν => m.Reachable) WordMap.capacity WordMap.contains
        fun m => m.table.occupied m.layout) ∧
    (∀ {κ ν : Type} [SignedWord κ] [BEq ν],
      HistoryIndependent (fun m : WordKeyMap κ ν => ∃ policy, m.Reachable (fun _ => True) policy)
        ValueMap.capacity ValueMap.contains fun m => m.table.occupied m.layout) ∧
    (∀ {η κ ν : Type} [Hasher η κ] [BEq κ] [EquivBEq κ] [BEq ν] (hashing : Mixed η),
      HistoryIndependent
        (fun m : KeyMap η κ ν => m.hashing = hashing ∧
          ∃ policy, m.Reachable (fun hashing => Hasher.Lawful hashing.hasher κ) policy)
        ValueMap.capacity ValueMap.contains fun m => m.table.occupied m.layout) ∧
    (∀ {ν : Type} [BEq ν],
      HistoryIndependent (fun m : PairMap ν => m.Reachable) PairMap.capacity PairMap.contains
        fun m => m.inner.table.occupied m.inner.layout) ∧
    (∀ {κ ν : Type} [SignedWord κ] [SignedWord ν],
      HistoryIndependent (fun t : Tally κ ν => t.Reachable) Tally.capacity Tally.contains
        fun t => t.counts.table.occupied t.counts.layout) ∧
    (∀ {α : Type} [SignedWord α],
      HistoryIndependent (fun s : WordSet α => s.Reachable) WordSet.capacity WordSet.contains
        fun s => s.inner.table.occupied s.inner.layout) ∧
    (∀ {η α : Type} [Hasher η α] [BEq α] [EquivBEq α] (hashing : Mixed η),
      HistoryIndependent (fun s : KeySet η α => s.hashing = hashing ∧ KeySet.Reachable s)
        MemberSet.capacity MemberSet.contains fun s => s.table.occupied s.layout) := by
  refine ⟨WordMap.historyIndependent, ?_, ?_, PairMap.historyIndependent, Tally.historyIndependent,
    WordSet.historyIndependent, KeySet.historyIndependent⟩
  · intro κ ν _ _ a b ha hb
    have hE : ∀ hashing : Spreading, True → ValueMap.LawfulSlots (κ := κ) (WordSlot κ ν) hashing :=
      fun hashing _ => wordSlot_lawful hashing
    exact ValueMap.historyIndependent hE {} ⟨rfl, ha⟩ ⟨rfl, hb⟩
  · intro η κ ν _ _ _ _ hashing a b
    have hE : ∀ hashing : Mixed η, Hasher.Lawful hashing.hasher κ →
        ValueMap.LawfulSlots (κ := κ) (Option (Bucket κ ν)) hashing := fun _ h => bucket_lawful h
    exact ValueMap.historyIndependent hE hashing

/-- Four keys of one run, which goes round the end of the table, are put in one after the other; or the
other way round, beside keys that are removed again, by a predicate and by a cursor where there is one, and
with growth and compaction in between. They come to lie in different slots, but the same slots are taken. -/
theorem occupied_of_reachable_reversed :
    let word : WordMap Int32 Int32 := finalState WordMap.Operation.perform
      [.insert 15 1, .insert 16 2, .insert 14 3, .insert 30 4] (.empty (-1))
    let word' : WordMap Int32 Int32 := finalState WordMap.Operation.perform
      [.insert 30 5, .insert 4 6, .insert 14 7, .insert 0 8, .insert 16 9, .insert 15 10, .insert 12 11,
        .erase 4, .retain fun key _ => .answers (key != 12),
        .cursor [.next, .next, .next, .next, .next, .remove], .compact] (.empty 0)
    let wordKey : WordKeyMap Int64 Int32 := finalState ValueMap.Operation.perform
      [.insert 5 1, .insert 16 2, .insert 10 3, .insert 26 4] (.empty .nonNull {})
    let wordKey' : WordKeyMap Int64 Int32 := finalState ValueMap.Operation.perform
      [.insertNull 26, .insert 10 6, .insert 3 7, .insert 16 8, .insert 5 9, .insert 7 10,
        .erase 3, .cursor [.next, .next, .remove], .compact] (.empty .nullable {})
    let hasher := HasherChoice.constant 7
    let key : KeyMap HasherChoice String Int32 := finalState ValueMap.Operation.perform
      [.insert "a" 1, .insert "b" 2, .insert "c" 3] (.empty .nonNull ⟨hasher⟩)
    let key' : KeyMap HasherChoice String Int32 := finalState ValueMap.Operation.perform
      [.extend [("c", 4), ("b", 5), ("d", 6), ("a", 7)], .retain fun key _ => .answers (key != "d")]
      (.empty .nonNull ⟨hasher⟩)
    let pair : PairMap Int32 := finalState PairMap.Operation.perform
      [.insert (1, 0) 1, .insert (1, 4) 2, .insert (1, 5) 3] .empty
    let pair' : PairMap Int32 := finalState PairMap.Operation.perform
      [.extend [((1, 5), 4), ((1, 30), 5), ((1, 4), 6), ((1, 0), 7)], .erase (1, 30)] .empty
    let tally : Tally Int32 Int32 := finalState Tally.Operation.perform
      [.incrementAndGet 15, .incrementAndGet 16, .incrementAndGet 14] (.empty 0)
    let tally' : Tally Int32 Int32 := finalState Tally.Operation.perform
      [.set 14 5, .set 30 6, .set 16 7, .set 15 8, .addAndGet 30 (-6)] (.empty 0)
    let wordSet : WordSet Int32 := finalState WordSet.Operation.perform
      [.extend [15, -1, 16, 14]] .empty
    let wordSet' : WordSet Int32 := finalState WordSet.Operation.perform
      [.extend [14, 30, 16, 15], .eraseAll [30, -1], .insert (-1)] .empty
    let keySet : KeySet HasherChoice String := finalState MemberSet.Operation.perform
      [.extend ["a", "b", "c"]] (.empty ⟨hasher⟩)
    let keySet' : KeySet HasherChoice String := finalState MemberSet.Operation.perform
      [.extend ["c", "d", "b", "a"], .take "d"] (.empty ⟨hasher⟩)
    (word.table.occupied word.layout = word'.table.occupied word'.layout ∧
      word.entries.map Prod.fst ≠ word'.entries.map Prod.fst) ∧
    (wordKey.table.occupied wordKey.layout = wordKey'.table.occupied wordKey'.layout ∧
      wordKey.entries.map Prod.fst ≠ wordKey'.entries.map Prod.fst) ∧
    (key.table.occupied key.layout = key'.table.occupied key'.layout ∧
      key.entries.map Prod.fst ≠ key'.entries.map Prod.fst) ∧
    (pair.inner.table.occupied pair.inner.layout = pair'.inner.table.occupied pair'.inner.layout ∧
      pair.entries.map Prod.fst ≠ pair'.entries.map Prod.fst) ∧
    (tally.counts.table.occupied tally.counts.layout = tally'.counts.table.occupied tally'.counts.layout ∧
      tally.entries.map Prod.fst ≠ tally'.entries.map Prod.fst) ∧
    (wordSet.inner.table.occupied wordSet.inner.layout =
        wordSet'.inner.table.occupied wordSet'.inner.layout ∧
      wordSet.members ≠ wordSet'.members) ∧
    (keySet.table.occupied keySet.layout = keySet'.table.occupied keySet'.layout ∧
      keySet.members ≠ keySet'.members) := by
  intro word word' wordKey wordKey' hasher key key' pair pair' tally tally' wordSet wordSet' keySet keySet'
  obtain ⟨ofWord, ofWordKey, ofKey, ofPair, ofTally, ofWordSet, ofKeySet⟩ := occupied_of_reachable
  have hlawful : Hasher.Lawful hasher String := fun a b h => by rw [eq_of_beq h]
  refine ⟨⟨?_, by decide +kernel⟩, ⟨?_, by decide +kernel⟩, ⟨?_, by decide +kernel⟩, ⟨?_, by decide +kernel⟩,
    ⟨?_, by decide +kernel⟩, ⟨?_, by decide +kernel⟩, ⟨?_, by decide +kernel⟩⟩
  · have h : word.Reachable := ⟨{}, -1, _, WordMap.ofConfig_default _, .run (by decide +kernel)⟩
    have h' : word'.Reachable := ⟨{}, 0, _, WordMap.ofConfig_default _, .run (by decide +kernel)⟩
    exact ofWord h h' (by decide +kernel) ((h.sameKeys_iff h').mp (by decide +kernel))
  · have hE : ∀ hashing : Spreading, True → ValueMap.LawfulSlots (WordSlot Int64 Int32) hashing :=
      fun hashing _ => wordSlot_lawful hashing
    have h : wordKey.Reachable (fun _ => True) .nonNull :=
      ⟨{}, {}, _, trivial, ValueMap.ofConfig_default _ _, .run (by decide +kernel)⟩
    have h' : wordKey'.Reachable (fun _ => True) .nullable :=
      ⟨{}, {}, _, trivial, ValueMap.ofConfig_default _ _, .run (by decide +kernel)⟩
    exact ofWordKey ⟨_, h⟩ ⟨_, h'⟩ (by decide +kernel) ((h.sameKeys_iff hE h').mp (by decide +kernel))
  · have hE : ∀ hashing : Mixed HasherChoice, Hasher.Lawful hashing.hasher String →
        ValueMap.LawfulSlots (Option (Bucket String Int32)) hashing := fun _ h => bucket_lawful h
    have h : key.Reachable (fun hashing => Hasher.Lawful hashing.hasher String) .nonNull :=
      ⟨{}, ⟨hasher⟩, _, hlawful, ValueMap.ofConfig_default _ _, .run (by decide +kernel)⟩
    have h' : key'.Reachable (fun hashing => Hasher.Lawful hashing.hasher String) .nonNull :=
      ⟨{}, ⟨hasher⟩, _, hlawful, ValueMap.ofConfig_default _ _, .run (by decide +kernel)⟩
    have hhasher : key'.hashing.hasher = key.hashing.hasher := by decide +kernel
    exact ofKey key.hashing ⟨rfl, _, h⟩ ⟨congrArg Mixed.mk hhasher, _, h'⟩ (by decide +kernel)
      ((h.sameKeys_iff hE h').mp (by decide +kernel))
  · have hnew : PairMap.ofConfig {} = .ok (PairMap.empty : PairMap Int32) := by
      rw [PairMap.ofConfig, ValueMap.ofConfig_default]; rfl
    have h : pair.Reachable := ⟨{}, _, hnew, .run (by decide +kernel)⟩
    have h' : pair'.Reachable := ⟨{}, _, hnew, .run (by decide +kernel)⟩
    exact ofPair h h' (by decide +kernel) ((h.sameKeys_iff h').mp (by decide +kernel))
  · have hnew : Tally.ofConfig {} 0 = .ok (.empty 0 : Tally Int32 Int32) := by
      rw [Tally.ofConfig, WordMap.ofConfig_default]; rfl
    have h : tally.Reachable := ⟨{}, 0, _, hnew, .run (by decide +kernel)⟩
    have h' : tally'.Reachable := ⟨{}, 0, _, hnew, .run (by decide +kernel)⟩
    exact ofTally h h' (by decide +kernel) ((h.counts.sameKeys_iff h'.counts).mp (by decide +kernel))
  · have h : wordSet.Reachable := ⟨{}, _, WordSet.ofConfig_default, .run (by decide +kernel)⟩
    have h' : wordSet'.Reachable := ⟨{}, _, WordSet.ofConfig_default, .run (by decide +kernel)⟩
    exact ofWordSet h h' (by decide +kernel) ((h.sameKeys_iff h').mp (by decide +kernel))
  · have h : KeySet.Reachable keySet :=
      ⟨hasher, {}, _, hlawful, MemberSet.ofConfig_default _, .run (by decide +kernel)⟩
    have h' : KeySet.Reachable keySet' :=
      ⟨hasher, {}, _, hlawful, MemberSet.ofConfig_default _, .run (by decide +kernel)⟩
    have hhasher : keySet'.hashing.hasher = keySet.hashing.hasher := by decide +kernel
    exact ofKeySet keySet.hashing ⟨rfl, h⟩ ⟨congrArg Mixed.mk hhasher, h'⟩ (by decide +kernel)
      ((h.sameKeys_iff h').mp (by decide +kernel))

end LinearProbing
