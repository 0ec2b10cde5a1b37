import LinearProbing.Proofs.Rehashing

/-!
# LinearProbing.Proofs.Membership

**A search decides whether a key is in a table, and ends.** All that is needed is a vacant slot and the
arrangement of the slots: that keys are distinct and each is reached from its home. What the capacity is, and
which home a key has, does not matter.

The loop of a search has no end of its own: `Layout.Probes` is the loop without the bound that the library gives
it, with the slots that it looks at. It ends within the bound (`exists_probes`), and `Table.Decides` collects
what is then known: the key is in the slot where it was found, or else it belongs into the first vacant slot from
its home on, which is also what a search for a vacant slot finds.
-/

namespace LinearProbing

/-! ### The loop -/

namespace Layout

variable {σ : Type} {L : Layout σ} {slots : Array σ} {accepts : σ → Bool} {home index i steps : Nat}
variable {visited : List Nat} {outcome : Probe}

/-- The loop of a search: from `index` on it looks at the slots `visited`, one in each round, and ends with
`outcome`. -/
inductive Probes (L : Layout σ) (slots : Array σ) (accepts : σ → Bool) :
    (index : Nat) → (visited : List Nat) → Probe → Prop
  | vacant {index : Nat} (vacant : L.vacantAt slots index = true) :
      Probes L slots accepts index [index] (.vacant index)
  | found {index : Nat} (occupied : L.vacantAt slots index = false)
      (accepted : accepts (L.slotAt slots index) = true) :
      Probes L slots accepts index [index] (.found index)
  | pass {index : Nat} {visited : List Nat} {outcome : Probe} (occupied : L.vacantAt slots index = false)
      (refused : accepts (L.slotAt slots index) = false)
      (rest : Probes L slots accepts (nextSlot slots.size index) visited outcome) :
      Probes L slots accepts index (index :: visited) outcome

/-- The loop stays within the array. -/
theorem Probes.lt_size (h : L.Probes slots accepts index visited outcome) (hindex : index < slots.size) :
    ∀ i ∈ visited, i < slots.size := by
  induction h with
  | vacant _ =>
      intro i hi
      rwa [List.mem_singleton.mp hi]
  | found _ _ =>
      intro i hi
      rwa [List.mem_singleton.mp hi]
  | pass _ _ _ ih =>
      intro i hi
      rcases List.mem_cons.mp hi with rfl | hi
      · exact hindex
      · exact ih (nextSlot_lt hindex) i hi

/-- **The loop ends** with what the bounded search gives, if that comes to an end. -/
theorem exists_probes (h : L.probeFrom slots accepts steps index ≠ .endless) :
    ∃ visited, L.Probes slots accepts index visited (L.probeFrom slots accepts steps index) ∧
      visited.length ≤ steps := by
  induction steps generalizing index with
  | zero => exact absurd rfl h
  | succ steps ih =>
      rw [probeFrom] at h ⊢
      by_cases hvac : L.vacantAt slots index = true
      · rw [if_pos hvac]
        exact ⟨[index], .vacant hvac, Nat.succ_le_succ (Nat.zero_le steps)⟩
      rw [if_neg hvac] at h ⊢
      rw [Bool.not_eq_true] at hvac
      by_cases hacc : accepts (L.slotAt slots index) = true
      · rw [if_pos hacc]
        exact ⟨[index], .found hvac hacc, Nat.succ_le_succ (Nat.zero_le steps)⟩
      rw [if_neg hacc] at h ⊢
      rw [Bool.not_eq_true] at hacc
      obtain ⟨visited, hrest, hlen⟩ := ih h
      exact ⟨index :: visited, .pass hvac hacc hrest, Nat.succ_le_succ hlen⟩

/-- The vacant slot at which a search ends is the first one from its home on. -/
theorem Searched.exists_offset (h : L.Searched slots accepts home (.vacant i)) (hh : home < slots.size) :
    ∃ offset < slots.size, i = offsetSlot slots.size home offset ∧ L.vacantAt slots i = true ∧
      ∀ g < offset, L.vacantAt slots (offsetSlot slots.size home g) = false := by
  cases h with
  | vacant hi hvac passed =>
      have hlt := distance_lt hh hi
      refine ⟨_, hlt, (offsetSlot_distance hh hi).symm, hvac, fun g hg => ?_⟩
      have hsize := Nat.lt_trans hg hlt
      refine (passed _ (offsetSlot_lt hsize) ?_).1
      rwa [OnWay, distance_offsetSlot hh hsize]

end Layout

/-! ### Keys -/

/-- Where keys are distinct, a search finds a key in the one slot that holds it. -/
theorem EntryLayout.Located.found_iff {σ κ ν : Type} [BEq κ] [EquivBEq κ] {E : EntryLayout σ κ ν}
    {hash : κ → UInt64} {storable : κ → ν → Prop} {slots : Array σ} {key : κ} {outcome : Probe}
    (h : E.Located hash slots key outcome) (harranged : E.Arranged hash slots) (hE : E.Lawful hash storable)
    (i : Nat) : outcome = .found i ↔ ∃ e, E.entryAt? slots i = some e ∧ (e.1 == key) = true := by
  cases h with
  | @found j k v entry same =>
      constructor
      · intro heq
        rw [← Probe.found.inj heq]
        exact ⟨(k, v), entry, same⟩
      · rintro ⟨e, he, hkey⟩
        rw [harranged.index_unique hE entry he (BEq.trans same (BEq.symm hkey))]
  | vacant _ absent =>
      refine ⟨nofun, ?_⟩
      rintro ⟨e, he, hkey⟩
      have hmem := mem_entries_iff.mpr ⟨i, hE.lt_size he, he⟩
      exact absurd ((absent e hmem).symm.trans hkey) (by decide)

/-! ### Tables -/

namespace Table

open EntryLayout (Lawful Arranged)

variable {σ κ ν : Type} [BEq κ] {E : EntryLayout σ κ ν} {hash : κ → UInt64} {storable : κ → ν → Prop}
variable {t : Table σ} {i : Nat} {key : κ}

/-- What the search for a key with the home `home` finds out in a table. -/
structure Decides (E : EntryLayout σ κ ν) (hash : κ → UInt64) (storable : κ → ν → Prop) (t : Table σ)
    (key : κ) (home : Nat) : Prop where
  /-- The loop ends after no more rounds than there are slots, and looks at slots of the array only. -/
  ends : ∃ visited, E.layout.Probes t.slots (E.holds (hash key) key) home visited
    (t.locate E (hash key) key) ∧ visited.length ≤ t.slots.size ∧ ∀ i ∈ visited, i < t.slots.size
  /-- It finds the key in the slot that holds it. -/
  found_iff : ∀ i, t.locate E (hash key) key = .found i ↔
    ∃ e, t.entryAt? E i = some e ∧ (e.1 == key) = true
  find?_iff : ∀ i, t.find? E (hash key) key = some i ↔
    ∃ e, t.entryAt? E i = some e ∧ (e.1 == key) = true
  /-- If no slot does, it ends at the vacant slot that is the first one from the home on. -/
  vacant : (∀ e ∈ t.entries E, (e.1 == key) = false) → ∃ offset < t.slots.size,
    t.locate E (hash key) key = .vacant ((home + offset) % t.slots.size) ∧
      t.entryAt? E ((home + offset) % t.slots.size) = none ∧
        ∀ g < offset, ∃ e, t.entryAt? E ((home + g) % t.slots.size) = some e
  /-- The key can be written there: all keys are still distinct and reached from their homes. -/
  written : ∀ {i value}, t.locate E (hash key) key = .vacant i → storable key value →
    E.Arranged hash (t.setAt i (E.occupy (hash key) key value)).slots ∧
      ((t.setAt i (E.occupy (hash key) key value)).entries E).Perm ((key, value) :: t.entries E)
  /-- A search for any vacant slot ends there, too. -/
  firstVacant : ∀ {i}, t.locate E (hash key) key = .vacant i →
    E.layout.firstVacant? t.slots home = some i ∧ E.layout.Seeks t.slots home i

variable [EquivBEq κ]

/-- **A search decides whether a key is in the table.** -/
theorem decides (hE : E.Lawful hash storable) (harranged : E.Arranged hash t.slots)
    (hroom : ∃ v < t.slots.size, E.layout.vacantAt t.slots v = true) (key : κ) :
    Decides E hash storable t key (homeSlot (hash key).toNat t.slots.size) := by
  obtain ⟨v, hv, hvac⟩ := hroom
  have hhome : homeSlot (hash key).toNat t.slots.size < t.slots.size := homeSlot_lt (Nat.zero_lt_of_lt hv)
  have hfewer : (E.entries t.slots).length < t.slots.size := by
    rw [EntryLayout.length_entries]
    exact Layout.length_occupants_lt ⟨v, hv, hvac⟩
  have hlocated : E.Located hash t.slots key (t.locate E (hash key) key) :=
    harranged.located hE hfewer key
  have hfound := hlocated.found_iff harranged hE
  have hends : t.locate E (hash key) key ≠ .endless := by
    intro hendless
    rw [hendless] at hlocated
    cases hlocated
  exact
    { ends := by
        obtain ⟨visited, hprobes, hlen⟩ := Layout.exists_probes hends
        exact ⟨visited, hprobes, hlen, hprobes.lt_size hhome⟩
      found_iff := hfound
      find?_iff := fun i =>
        ⟨fun h => (hfound i).mp (locate_of_find? h), fun h => find?_of_found ((hfound i).mpr h)⟩
      vacant := by
        intro habsent
        generalize t.locate E (hash key) key = outcome at hlocated
        cases hlocated with
        | found entry same =>
            have hmem := EntryLayout.mem_entries_iff.mpr ⟨_, hE.lt_size entry, entry⟩
            exact absurd ((habsent _ hmem).symm.trans same) (by decide)
        | vacant searched _ =>
            obtain ⟨offset, hlt, rfl, hfree, hpassed⟩ := searched.exists_offset hhome
            exact ⟨offset, hlt, rfl, EntryLayout.vacantAt_eq_true_iff.mp hfree,
              fun g hg => EntryLayout.vacantAt_eq_false_iff.mp (hpassed g hg)⟩
      written := fun hlocate hs => harranged.fill hE (hlocate ▸ hlocated) hs
      firstVacant := fun hlocate =>
        have hfirst := Layout.firstVacantFrom_of_probeFrom hlocate
        ⟨hfirst, Layout.seeks_of_firstVacantFrom hfirst⟩ }

/-- **Searches decide membership, and the loops end**, in every array of slots of which one is vacant, if the
keys are distinct and each is reached from its home: the search for a key, whatever its home is, and the closing
of the gap that is left when one slot is emptied. -/
theorem decides_of_arranged (hE : E.Lawful hash storable) (harranged : E.Arranged hash t.slots)
    (hroom : ∃ v < t.slots.size, E.layout.vacantAt t.slots v = true) :
    (∀ key, Decides E hash storable t key (homeSlot (hash key).toNat t.slots.size)) ∧
      ∀ {i e}, t.entryAt? E i = some e → ∃ steps < t.slots.size,
        E.layout.Closes i (nextSlot t.slots.size i) (t.takeAt E i).slots steps (t.eraseAt E i).slots := by
  refine ⟨decides hE harranged hroom, fun he => ?_⟩
  obtain ⟨v, hv, hvac⟩ := hroom
  exact Layout.erase_closes hE.layout harranged.chained (EntryLayout.vacantAt_of_entryAt? he) hv hvac

/-- In a map of words and in a map of keys, all of which have one home, with runs that go round the end of
eight slots. -/
theorem decides_of_arranged_wrapping :
    let hasher := HasherChoice.constant 7
    let hash (key : String) : UInt64 := mix64 (Hasher.rawHash hasher key)
    let words : WordMap Int32 Int32 := finalState WordMap.Operation.perform
      [.insert 15 1, .insert 16 2, .insert 14 3, .insert 30 4, .insert 12 5] (.empty (-1))
    let keys : KeyMap HasherChoice String Int32 := finalState ValueMap.Operation.perform
      [.insert "a" 1, .insert "b" 2, .insertNull "c", .insert "d" 4, .insert "e" 5]
      (.empty .nullable ⟨hasher⟩)
    (words.layout.Arranged SignedWord.spread words.table.slots ∧
      (∃ v < words.table.slots.size, words.layout.layout.vacantAt words.table.slots v = true) ∧
      words.locate 30 = .found 1 ∧ words.locate 3 = .vacant 2 ∧
      Decides words.layout SignedWord.spread (fun _ value => value ≠ words.missing) words.table 3 5) ∧
    (keys.layout.Arranged hash keys.table.slots ∧
      (∃ v < keys.table.slots.size, keys.layout.layout.vacantAt keys.table.slots v = true) ∧
      keys.locate "e" = .found 0 ∧ keys.locate "f" = .vacant 1 ∧
      Decides keys.layout hash EntryLayout.AnyEntry keys.table "f" 4 ∧
      ∃ steps < keys.table.slots.size, keys.layout.layout.Closes 4 (nextSlot keys.table.slots.size 4)
        (keys.table.takeAt keys.layout 4).slots steps (keys.table.eraseAt keys.layout 4).slots) := by
  intro hasher hash words keys
  have hlawful : Hasher.Lawful hasher String := fun a b h => by rw [eq_of_beq h]
  obtain ⟨_, hwords⟩ := WordMap.exists_of_reaches (WordMap.ofConfig_default _)
    (show Reaches _ _ _ words from .run (by decide +kernel))
  obtain ⟨_, hkeys⟩ := ValueMap.exists_of_reaches (bucket_lawful hlawful) (ValueMap.ofConfig_default _ _)
    (show Reaches _ _ _ keys from .run (by decide +kernel))
  have hwordsArranged : words.layout.Arranged SignedWord.spread words.table.slots := by
    rw [WordMap.layout, hwords.missing_eq]
    exact hwords.table.arranged
  have hkeysArranged : keys.layout.Arranged hash keys.table.slots := hkeys.table.arranged
  have hwordsRoom : ∃ v < words.table.slots.size,
      words.layout.layout.vacantAt words.table.slots v = true := ⟨3, by decide +kernel, by decide +kernel⟩
  have hkeysRoom : ∃ v < keys.table.slots.size,
      keys.layout.layout.vacantAt keys.table.slots v = true := ⟨3, by decide +kernel, by decide +kernel⟩
  obtain ⟨hwordsDecides, -⟩ :=
    decides_of_arranged (inlineLayout_lawful words.missing) hwordsArranged hwordsRoom
  obtain ⟨hkeysDecides, hkeysCloses⟩ :=
    decides_of_arranged (@bucket_lawful _ _ _ _ _ ⟨hasher⟩ hlawful) hkeysArranged hkeysRoom
  have hwordHome : homeSlot (SignedWord.spread (3 : Int32)).toNat words.table.slots.size = 5 := by
    decide +kernel
  have hkeyHome : homeSlot (hash "f").toNat keys.table.slots.size = 4 := by decide +kernel
  refine ⟨⟨hwordsArranged, hwordsRoom, by decide +kernel, by decide +kernel, ?_⟩,
    ⟨hkeysArranged, hkeysRoom, by decide +kernel, by decide +kernel, ?_, ?_⟩⟩
  · rw [← hwordHome]
    exact hwordsDecides 3
  · rw [← hkeyHome]
    exact hkeysDecides "f"
  · exact hkeysCloses (e := ("a", some 1)) (by decide +kernel)

end Table

end LinearProbing
