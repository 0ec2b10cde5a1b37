import LinearProbing.Proofs.Reachable

/-!
# LinearProbing.Proofs.Rehashing

**Moving a table to another number of slots loses nothing.** A table that satisfies the invariant, but may
hold more entries than its threshold allows, is moved to any power of two above their number, be it greater
or less than the present one: the loop ends, the slots hold what the old ones held, every entry is reached
from its new home, and the entry at the tracked slot is found at the slot that comes with the result
(`Table.Rehashed`). So an insertion that grows the table still gives the slot of the new entry
(`Table.InsertedAt`).

The loop looks for a vacant slot for each entry, without an end of its own: `Layout.Seeks` and
`Layout.Refills` are the two loops without the bounds that the library gives them. They end, as there is
always one vacant slot more than entries left (`refills_refill`).
-/

namespace LinearProbing

/-! ### The loops -/

namespace Layout

variable {σ : Type} {L : Layout σ} {slots : Array σ} {tracked : Nat}

/-- The search for a vacant slot: from `index` on, it ends at `target`. -/
inductive Seeks (L : Layout σ) (slots : Array σ) : (index target : Nat) → Prop
  | stop {index : Nat} (vacant : L.vacantAt slots index = true) : Seeks L slots index index
  | pass {index target : Nat} (occupied : L.vacantAt slots index = false)
      (rest : Seeks L slots (nextSlot slots.size index) target) : Seeks L slots index target

/-- The loop that puts the occupants of a list of slots, which starts at `index`, into an array, each into
the vacant slot that the search from its home ends at; from `moved` it goes to `result`. -/
inductive Refills (L : Layout σ) (tracked : Nat) :
    (index : Nat) → List σ → (moved result : Array σ × Nat) → Prop
  | done {index : Nat} {moved : Array σ × Nat} : Refills L tracked index [] moved moved
  | skip {index : Nat} {slot : σ} {rest : List σ} {moved result : Array σ × Nat}
      (vacant : L.vacant slot = true) (others : Refills L tracked (index + 1) rest moved result) :
      Refills L tracked index (slot :: rest) moved result
  | put {index seen target : Nat} {slot : σ} {rest : List σ} {slots : Array σ} {result : Array σ × Nat}
      (occupied : L.vacant slot = false) (sought : Seeks L slots (L.home slots.size slot) target)
      (others : Refills L tracked (index + 1) rest
        (slots.setIfInBounds target slot, if index = tracked then target else seen) result) :
      Refills L tracked index (slot :: rest) (slots, seen) result

theorem seeks_of_firstVacantFrom {steps index target : Nat}
    (h : L.firstVacantFrom slots steps index = some target) : L.Seeks slots index target := by
  induction steps generalizing index with
  | zero => cases h
  | succ steps ih =>
      rw [firstVacantFrom] at h
      split at h
      · next hvac => exact Option.some.inj h ▸ .stop hvac
      · next hocc => exact .pass (by simpa using hocc) (ih h)

/-- **The loop ends** with what the bounded one gives, if there is room for one more than all occupants. -/
theorem refills_refill (added : List σ) (index seen : Nat) (hc : L.Chained slots)
    (hroom : (added.filter (! L.vacant ·)).length + (L.occupants slots).length < slots.size) :
    L.Refills tracked index added (slots, seen) (L.refill tracked index added (slots, seen)) := by
  -- room is counted in entries that still come, so the slots visited so far enter as occupants
  induction added generalizing index seen slots with
  | nil => exact .done
  | cons s rest ih =>
      rw [refill]
      by_cases hs : L.vacant s = true
      · rw [if_pos hs]
        rw [List.filter_cons_of_neg (by simp [hs])] at hroom
        exact .skip hs (ih (index + 1) seen hc hroom)
      · rw [if_neg hs]
        rw [Bool.not_eq_true] at hs
        -- an entry is left, so some slot is vacant, and the search for it ends
        obtain ⟨target, hplaced⟩ := exists_placed hc hs hroom
        rw [hplaced.firstVacant?_eq]
        exact .put hs (seeks_of_firstVacantFrom hplaced.firstVacant?_eq)
          (ih (index + 1) _ hplaced.chained hplaced.room)

theorem refills_rehash (hL : L.Lawful) {capacity : Nat} (hroom : (L.occupants slots).length < capacity) :
    L.Refills tracked 0 slots.toList (Array.replicate capacity L.empty, tracked)
      (L.rehash slots capacity tracked) := by
  refine refills_refill slots.toList 0 tracked (hL.chained_replicate capacity) ?_
  rw [hL.occupants_replicate, List.length_nil, Nat.add_zero, Array.size_replicate]
  exact hroom

end Layout

/-! ### Tables -/

namespace Table

open EntryLayout (Lawful)

variable {σ κ ν : Type} [BEq κ]
variable {E : EntryLayout σ κ ν} {hash : κ → UInt64} {storable : κ → ν → Prop}
variable {t : Table σ} {sizing : Sizing} {tracked index : Nat} {key : κ} {value : ν}

/-- What moving a table to another size leaves: a table, and the new slot of the tracked entry. -/
structure Rehashed (E : EntryLayout σ κ ν) (hash : κ → UInt64) (t : Table σ) (sizing : Sizing)
    (tracked : Nat) (moved : Table σ × Nat) : Prop where
  /-- The loop ends. -/
  ends : E.layout.Refills tracked 0 t.slots.toList (Array.replicate sizing.capacity E.empty, tracked)
    (moved.1.slots, moved.2)
  sizing_eq : moved.1.sizing = sizing
  size_eq : moved.1.slots.size = sizing.capacity
  /-- The occupied slots are the old ones in another order, with all that they hold. -/
  occupants : (E.layout.occupants moved.1.slots).Perm (E.layout.occupants t.slots)
  entries : (moved.1.entries E).Perm (t.entries E)
  /-- No two slots hold equal keys. -/
  distinct : ∀ {i j e f}, moved.1.entryAt? E i = some e → moved.1.entryAt? E j = some f →
    (e.1 == f.1) = true → i = j
  /-- Every slot on the walk from the home of an entry to its slot is occupied. -/
  reached : ∀ {i e}, moved.1.entryAt? E i = some e → ∃ steps < sizing.capacity,
    i = (((hash e.1).toNat &&& (sizing.capacity - 1)) + steps) % sizing.capacity ∧
      ∀ g ≤ steps, ∃ f, moved.1.entryAt? E
        ((((hash e.1).toNat &&& (sizing.capacity - 1)) + g) % sizing.capacity) = some f
  /-- The hash in a slot is the hash of its key. -/
  hashed : ∀ {i e}, moved.1.entryAt? E i = some e →
    E.hash (E.layout.slotAt moved.1.slots i) = hash e.1
  len_eq : moved.1.len = t.len
  /-- The occupied slots are counted. -/
  count_eq : moved.1.slots.toList.countP (fun s => (E.entryIn? s).isSome) = t.len
  /-- The tracked entry, with all that its slot holds, is in the new slot. -/
  tracked : ∀ {e}, t.entryAt? E tracked = some e →
    E.layout.slotAt moved.1.slots moved.2 = E.layout.slotAt t.slots tracked

/-- What putting a new entry at the end of its search leaves. -/
inductive InsertedAt (E : EntryLayout σ κ ν) (hash : κ → UInt64) (t : Table σ) (key : κ) (value : ν)
    (c : Change (Table σ) Nat) : Prop
  /-- The result is the slot of the entry, where the search for the key finds it. -/
  | stored {slot : Nat} (result : c.result = .ok slot) (entry : c.state.entryAt? E slot = some (key, value))
      (found : c.state.find? E (hash key) key = some slot)
      (entries : (c.state.entries E).Perm ((key, value) :: t.entries E))
  /-- There is no size to which the table could grow. -/
  | overflow (result : c.result = .error .capacityOverflow)
      (none : t.sizing.grownFor? (t.len + 1) = none)

/-- Entries are moved and added as they should be. -/
structure KeepsEntries (E : EntryLayout σ κ ν) (hash : κ → UInt64) (storable : κ → ν → Prop) (t : Table σ) :
    Prop where
  /-- The table can be moved to every power of two above the number of its entries. -/
  rehash : ∀ {sizing : Sizing} (tracked : Nat), (∃ k, sizing.capacity = 2 ^ k) → t.len < sizing.capacity →
    Rehashed E hash t sizing tracked (t.rehash E sizing tracked)
  /-- A new entry is put at the end of its search, as long as some slot is vacant. -/
  insertAt : ∀ {key value index}, storable key value → t.len < t.slots.size →
    t.locate E (hash key) key = .vacant index →
      InsertedAt E hash t key value (t.insertAt E index (E.occupy (hash key) key value))

theorem WellFormed.length_occupants (h : t.WellFormed E hash) :
    (E.layout.occupants t.slots).length = t.len := by
  rw [← EntryLayout.length_entries, ← entries_eq, h.len_eq]

variable [EquivBEq κ]

/-- **Moving a table** whose entries may be too many for its threshold. -/
theorem WellFormed.rehashed (h : t.WellFormed E hash) (hE : E.Lawful hash storable)
    (hpow : ∃ k, sizing.capacity = 2 ^ k) (hroom : t.len < sizing.capacity) (tracked : Nat) :
    Rehashed E hash t sizing tracked (t.rehash E sizing tracked) := by
  have hoccupants : (E.layout.occupants t.slots).length < sizing.capacity := by
    rwa [h.length_occupants]
  obtain ⟨hsize, hchained, hperm⟩ :=
    @Layout.rehash_rebuilt _ _ t.slots hE.layout sizing.capacity tracked hoccupants
  have harranged := h.arranged.of_occupants hchained hperm
  have hentries : ((t.rehash E sizing tracked).1.entries E).Perm (t.entries E) :=
    EntryLayout.entries_perm hperm
  -- the capacity is a power of two, so masking is the remainder of the home slot
  have hhome : ∀ hash, homeSlot hash sizing.capacity = hash &&& (sizing.capacity - 1) := by
    obtain ⟨k, hk⟩ := hpow
    intro hash
    rw [hk, homeSlot, Nat.and_two_pow_sub_one_eq_mod]
  exact
    { ends := Layout.refills_rehash hE.layout hoccupants
      sizing_eq := rfl
      size_eq := hsize
      occupants := hperm
      entries := hentries
      distinct := fun he hf hkey => harranged.index_unique hE he hf hkey
      reached := fun he => by
        have hreached := harranged.reached hE he
        rwa [hsize, hhome] at hreached
      hashed := fun he => harranged.hash_eq hE he
      len_eq := rfl
      count_eq := by
        rw [← List.length_filterMap_eq_countP, h.len_eq]
        exact hentries.length_eq
      tracked := fun he =>
        Layout.rehash_tracked hE.layout hoccupants (EntryLayout.vacantAt_of_entryAt? he) }

/-- The search for the key of an entry ends at its slot. -/
theorem WellFormed.find?_eq (h : t.WellFormed E hash) (hE : E.Lawful hash storable)
    (hroom : t.len < t.slots.size) (he : t.entryAt? E index = some (key, value)) :
    t.find? E (hash key) key = some index := by
  have hlocated := h.located hE hroom key
  generalize hlocate : t.locate E (hash key) key = outcome at hlocated
  cases hlocated with
  | found entry same =>
      rw [find?_of_found hlocate, h.index_unique hE entry he same]
  | vacant _ absent =>
      have := absent (key, value) (EntryLayout.mem_entries_iff.mpr ⟨index, hE.lt_size he, he⟩)
      exact absurd (this.symm.trans BEq.rfl) (by decide)

theorem WellFormed.withEntry (h : t.WellFormed E hash) (key : κ) (value : ν) (hE : E.Lawful hash storable)
    (hs : storable key value) (hroom : t.len < t.slots.size)
    (hlocate : t.locate E (hash key) key = .vacant index) :
    (t.withEntry index (E.occupy (hash key) key value)).WellFormed E hash :=
  (h.fill hE (hlocate ▸ h.located hE hroom key) hs).1

theorem WellFormed.insertedAt (h : t.WellFormed E hash) (hE : E.Lawful hash storable)
    (hs : storable key value) (hroom : t.len < t.slots.size)
    (hlocate : t.locate E (hash key) key = .vacant index) :
    InsertedAt E hash t key value (t.insertAt E index (E.occupy (hash key) key value)) := by
  have hlocated := h.located hE hroom key
  rw [hlocate] at hlocated
  obtain ⟨hwell, hentries, -, ⟨slot, hresult, hentry, hlen⟩ | ⟨hresult, -, -, hnone⟩⟩ :=
    h.insertAt hE hlocated hs
  · exact .stored hresult hentry (hwell.find?_eq hE (hwell.len_lt hlen) hentry) hentries
  · exact .overflow hresult hnone

theorem WellFormed.keepsEntries (h : t.WellFormed E hash) (hE : E.Lawful hash storable) :
    KeepsEntries E hash storable t where
  rehash tracked hpow hroom := h.rehashed hE hpow hroom tracked
  insertAt hs hroom hlocate := h.insertedAt hE hs hroom hlocate

end Table

/-! ### Containers -/

/-- **Rehashing preserves the table**, and insertion gives the slot of the new entry, in every state of the
five containers that satisfies the table invariant but for the bound on the number of entries. -/
theorem keepsEntries_of_wellFormed :
    (∀ {κ ν : Type} [SignedWord κ] [SignedWord ν] {m : WordMap κ ν},
      m.table.WellFormed m.layout SignedWord.spread →
        m.table.KeepsEntries m.layout SignedWord.spread fun _ value => value ≠ m.missing) ∧
    (∀ {κ ν : Type} [SignedWord κ] {m : WordKeyMap κ ν},
      m.table.WellFormed m.layout SignedWord.spread →
        m.table.KeepsEntries m.layout SignedWord.spread EntryLayout.AnyEntry) ∧
    (∀ {η κ ν : Type} [Hasher η κ] [BEq κ] [EquivBEq κ] {hasher : η}, Hasher.Lawful hasher κ →
      ∀ {m : KeyMap η κ ν},
        m.table.WellFormed m.layout (fun key => mix64 (Hasher.rawHash hasher key)) →
          m.table.KeepsEntries m.layout (fun key => mix64 (Hasher.rawHash hasher key))
            EntryLayout.AnyEntry) ∧
    (∀ {α : Type} [SignedWord α] {s : WordSet α},
      s.inner.table.WellFormed s.inner.layout SignedWord.spread →
        s.inner.table.KeepsEntries s.inner.layout SignedWord.spread
          fun x _ => x ≠ SignedWord.minusOne) ∧
    (∀ {η α : Type} [Hasher η α] [BEq α] [EquivBEq α] {hasher : η}, Hasher.Lawful hasher α →
      ∀ {s : KeySet η α},
        s.table.WellFormed s.layout (fun x => mix64 (Hasher.rawHash hasher x)) →
          s.table.KeepsEntries s.layout (fun x => mix64 (Hasher.rawHash hasher x))
            EntryLayout.AnyEntry) := by
  refine ⟨?_, ?_, ?_, ?_, ?_⟩
  · intro κ ν _ _ m h
    exact h.keepsEntries (inlineLayout_lawful m.missing)
  · intro κ ν _ m h
    exact h.keepsEntries (wordSlot_lawful {})
  · intro η κ ν _ _ _ hasher hlawful m h
    exact h.keepsEntries (@bucket_lawful _ _ _ _ _ ⟨hasher⟩ hlawful)
  · intro α _ s h
    exact h.keepsEntries (wordMember_lawful {})
  · intro η α _ _ _ hasher hlawful s h
    exact h.keepsEntries (@hashedMember_lawful _ _ _ _ ⟨hasher⟩ hlawful)

/-- Tables of eight slots, whose runs go round the end, with an entry in them that is one too many: they move
to sixteen slots, and the new entry is where the result says. One with few entries moves from sixteen slots to
four. -/
theorem keepsEntries_of_wellFormed_overfull :
    let sizing (capacity : Nat) : Sizing := .ofCapacity capacity defaultLoadFactor
    let hasher := HasherChoice.constant 7
    let hash (key : String) : UInt64 := mix64 (Hasher.rawHash hasher key)
    let word : WordMap Int32 Int32 := finalState WordMap.Operation.perform
      [.insert 15 1, .insert 16 2, .insert 14 3, .insert 30 4, .insert 12 5] (.empty (-1))
    let fullWord := { word with table := word.table.withEntry 2 ((3, 6) : Int32 × Int32) }
    let sparse : WordMap Int32 Int32 := finalState WordMap.Operation.perform
      [.insert 15 1, .insert 16 2, .insert 14 3, .insert 30 4, .insert 12 5, .insert 3 6, .erase 16,
        .erase 14, .erase 30] (.empty (-1))
    let wordKey : WordKeyMap Int64 Int32 := finalState ValueMap.Operation.perform
      [.insert 5 1, .insert 16 2, .insertNull 10, .insert 26 4, .insert 12 5] (.empty .nullable {})
    let fullWordKey := wordKey.withTable (wordKey.table.withEntry 4 ⟨7, some none⟩)
    let key : KeyMap HasherChoice String Int32 := finalState ValueMap.Operation.perform
      [.insert "a" 1, .insert "b" 2, .insertNull "c", .insert "d" 4, .insert "e" 5]
      (.empty .nullable ⟨hasher⟩)
    let fullKey := key.withTable (key.table.withEntry 1 (some ⟨hash "f", "f", some 6⟩))
    let wordSet : WordSet Int32 := finalState WordSet.Operation.perform
      [.extend [15, 16, 14, -1, 30, 12]] .empty
    let fullWordSet : WordSet Int32 := { wordSet with
      inner := wordSet.inner.withTable (wordSet.inner.table.withEntry 2 (3 : Int32)) }
    let keySet : KeySet HasherChoice String := finalState MemberSet.Operation.perform
      [.extend ["a", "b", "c", "d", "e"]] (.empty ⟨hasher⟩)
    let fullKeySet := keySet.withTable (keySet.table.withEntry 1 (some ⟨hash "f", "f"⟩))
    (fullWord.table.len = fullWord.table.sizing.threshold + 1 ∧
      Table.Rehashed fullWord.layout SignedWord.spread fullWord.table (sizing 16) 2
        (fullWord.table.rehash fullWord.layout (sizing 16) 2) ∧
      Table.InsertedAt word.layout SignedWord.spread word.table 3 6
        (word.table.insertAt word.layout 2 (3, 6)) ∧
      (word.table.insertAt word.layout 2 (3, 6)).result = .ok 13) ∧
    (sparse.table.capacity = 16 ∧
      Table.Rehashed sparse.layout SignedWord.spread sparse.table (sizing 4) 0
        (sparse.table.rehash sparse.layout (sizing 4) 0)) ∧
    (fullWordKey.table.len = fullWordKey.table.sizing.threshold + 1 ∧
      Table.Rehashed fullWordKey.layout SignedWord.spread fullWordKey.table (sizing 16) 4
        (fullWordKey.table.rehash fullWordKey.layout (sizing 16) 4)) ∧
    (fullKey.table.len = fullKey.table.sizing.threshold + 1 ∧
      Table.Rehashed fullKey.layout hash fullKey.table (sizing 16) 1
        (fullKey.table.rehash fullKey.layout (sizing 16) 1)) ∧
    (fullWordSet.inner.table.len = fullWordSet.inner.table.sizing.threshold + 1 ∧
      Table.Rehashed fullWordSet.inner.layout SignedWord.spread fullWordSet.inner.table (sizing 16) 2
        (fullWordSet.inner.table.rehash fullWordSet.inner.layout (sizing 16) 2)) ∧
    (fullKeySet.table.len = fullKeySet.table.sizing.threshold + 1 ∧
      Table.Rehashed fullKeySet.layout hash fullKeySet.table (sizing 16) 1
        (fullKeySet.table.rehash fullKeySet.layout (sizing 16) 1)) := by
  intro sizing hasher hash word fullWord sparse wordKey fullWordKey key fullKey wordSet fullWordSet keySet
    fullKeySet
  obtain ⟨ofWord, ofWordKey, ofKey, ofWordSet, ofKeySet⟩ := keepsEntries_of_wellFormed
  have hlawful : Hasher.Lawful hasher String := fun a b h => by rw [eq_of_beq h]
  have hsixteen : ∃ k, (sizing 16).capacity = 2 ^ k := ⟨4, rfl⟩
  refine ⟨⟨by decide +kernel, ?_, ?_, by decide +kernel⟩, ⟨by decide +kernel, ?_⟩, ⟨by decide +kernel, ?_⟩,
    ⟨by decide +kernel, ?_⟩, ⟨by decide +kernel, ?_⟩, ⟨by decide +kernel, ?_⟩⟩
  · -- the states with an entry more than any run leaves come from a reached one by `withEntry`
    obtain ⟨_, h⟩ := WordMap.exists_of_reaches (WordMap.ofConfig_default _)
      (show Reaches _ _ _ word from .run (by decide +kernel))
    have hfull : fullWord.table.WellFormed fullWord.layout SignedWord.spread := by
      rw [WordMap.layout, show fullWord.missing = -1 from h.missing_eq]
      exact h.table.toWellFormed.withEntry 3 6 (inlineLayout_lawful (-1))
        (by decide) (by decide +kernel) (by decide +kernel)
    exact (ofWord hfull).rehash 2 hsixteen (by decide +kernel)
  · obtain ⟨_, h⟩ := WordMap.exists_of_reaches (WordMap.ofConfig_default _)
      (show Reaches _ _ _ word from .run (by decide +kernel))
    have hwell : word.table.WellFormed word.layout SignedWord.spread := by
      rw [WordMap.layout, h.missing_eq]
      exact h.table.toWellFormed
    exact (ofWord hwell).insertAt (by decide +kernel) (by decide +kernel) (by decide +kernel)
  · obtain ⟨_, h⟩ := WordMap.exists_of_reaches (WordMap.ofConfig_default _)
      (show Reaches _ _ _ sparse from .run (by decide +kernel))
    have hwell : sparse.table.WellFormed sparse.layout SignedWord.spread := by
      rw [WordMap.layout, h.missing_eq]
      exact h.table.toWellFormed
    exact (ofWord hwell).rehash 0 ⟨2, rfl⟩ (by decide +kernel)
  · obtain ⟨_, h⟩ := ValueMap.exists_of_reaches (wordSlot_lawful {}) (ValueMap.ofConfig_default _ _)
      (show Reaches _ _ _ wordKey from .run (by decide +kernel))
    exact (ofWordKey (m := fullWordKey) (h.table.toWellFormed.withEntry 7 none
      (wordSlot_lawful {}) trivial (by decide +kernel) (by decide +kernel))).rehash 4 hsixteen
      (by decide +kernel)
  · obtain ⟨_, h⟩ := ValueMap.exists_of_reaches (bucket_lawful hlawful) (ValueMap.ofConfig_default _ _)
      (show Reaches _ _ _ key from .run (by decide +kernel))
    exact (ofKey hlawful (m := fullKey) (h.table.toWellFormed.withEntry "f" (some 6)
      (bucket_lawful hlawful) trivial (by decide +kernel) (by decide +kernel))).rehash 1 hsixteen
      (by decide +kernel)
  · obtain ⟨_, h⟩ := WordSet.exists_of_reaches WordSet.ofConfig_default
      (show Reaches _ _ _ wordSet from .run (by decide +kernel))
    exact (ofWordSet (s := fullWordSet) (h.inner.table.toWellFormed.withEntry 3 ()
      (wordMember_lawful {}) (by decide) (by decide +kernel) (by decide +kernel))).rehash 2 hsixteen
      (by decide +kernel)
  · obtain ⟨_, h⟩ := MemberSet.exists_of_reaches (hashedMember_lawful hlawful) (MemberSet.ofConfig_default _)
      (show Reaches _ _ _ keySet from .run (by decide +kernel))
    exact (ofKeySet hlawful (s := fullKeySet) (h.table.toWellFormed.withEntry "f" ()
      (hashedMember_lawful hlawful) trivial (by decide +kernel) (by decide +kernel))).rehash 1 hsixteen
      (by decide +kernel)

end LinearProbing
