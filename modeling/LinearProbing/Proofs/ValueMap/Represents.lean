import LinearProbing.Proofs.Invariant
import LinearProbing.Proofs.ValueMap.Operation

/-!
# LinearProbing.Proofs.ValueMap.Represents

**Maps to values that may be null are finite maps.** `ValueMap.Represents` relates a map to the finite map
of its entries. Every operation keeps the relation and gives what its specification gives
(`Represents.perform`), if the slots are lawful for the hashing of the map (`LawfulSlots`); the only
exception is an insertion that cannot grow the table.
-/

namespace LinearProbing.ValueMap

variable {σ η κ ν : Type} [EntrySlot σ κ ν] [KeyHash η κ] [BEq κ]

/-- Slots that can store every entry, with a way to hash keys that agrees with their equality. -/
abbrev LawfulSlots (σ : Type) {η κ ν : Type} [EntrySlot σ κ ν] [KeyHash η κ] [BEq κ] (hashing : η) :
    Prop :=
  (EntrySlot.layout : EntryLayout σ κ (Option ν)).Lawful (KeyHash.hash hashing) EntryLayout.AnyEntry

variable {hashing : η} {policy : NullPolicy} {within : Prop}
variable {m : ValueMap σ η κ ν} {M N : FiniteMap κ (Option ν)} {t : Table σ}
variable {i : Nat} {key k : κ} {value : ν} {stored v : Option ν} {rest : List (κ × Option ν)}

/-- A usable map with the entries of a finite map. -/
structure Represents (hashing : η) (policy : NullPolicy) (within : Prop) (m : ValueMap σ η κ ν)
    (M : FiniteMap κ (Option ν)) : Prop where
  hashing_eq : m.hashing = hashing
  policy_eq : m.policy = policy
  table : m.table.Represents EntrySlot.layout (KeyHash.hash hashing) within M.entries

/-- A map whose table holds too many entries. -/
structure Overfull (hashing : η) (policy : NullPolicy) (within : Prop) (m : ValueMap σ η κ ν) :
    Prop where
  hashing_eq : m.hashing = hashing
  policy_eq : m.policy = policy
  table : m.table.Overfull EntrySlot.layout (KeyHash.hash hashing) within

/-- A change of a map does what is specified of it. -/
abbrev Changes (hashing : η) (policy : NullPolicy) (within : Prop) {α : Type}
    (c : Change (ValueMap σ η κ ν) α) (d : Change (FiniteMap κ (Option ν)) α) : Prop :=
  c.Tracks (Represents hashing policy within) (Overfull hashing policy within) d

/-- A call on a map does what is specified of it. -/
abbrev Calls (hashing : η) (policy : NullPolicy) (within : Prop) {γ α : Type}
    (c : Call (ValueMap σ η κ ν) γ α) (d : Call (FiniteMap κ (Option ν)) γ α) : Prop :=
  c.Tracks (Represents hashing policy within) (Overfull hashing policy within) d

/-- What a map stands for is what its table stands for. -/
theorem Represents.withTable (h : m.Represents hashing policy within M)
    (ht : t.Represents EntrySlot.layout (KeyHash.hash hashing) within N.entries) :
    (m.withTable t).Represents hashing policy within N :=
  ⟨h.hashing_eq, h.policy_eq, ht⟩

/-- The order of the entries of a finite map means nothing. -/
theorem Represents.perm (h : m.Represents hashing policy within M) (hN : M.entries.Perm N.entries) :
    m.Represents hashing policy within N :=
  ⟨h.hashing_eq, h.policy_eq, h.table.perm hN⟩

/-! ### Construction -/

/-- A new map stands for the empty one. -/
theorem represents_ofSizing (hE : LawfulSlots σ hashing) {sizing : Sizing} (hs : sizing.Valid)
    (mode : IterationMode) :
    (ofSizing sizing mode policy hashing : ValueMap σ η κ ν).Represents hashing policy within {} :=
  ⟨rfl, rfl, Table.represents_ofSizing hE hs mode⟩

/-- A new map is empty. -/
theorem represents_of_ofConfig (hE : LawfulSlots σ hashing) {config : TableConfig}
    (h : ofConfig config policy hashing = .ok m) : m.Represents hashing policy within {} := by
  obtain ⟨sizing, hsizing, rfl⟩ := exists_of_map_eq_ok h
  exact represents_ofSizing hE (Sizing.valid_of_ofConfig hsizing) config.mode

omit [KeyHash η κ] [BEq κ] in
theorem ofConfig_default (policy : NullPolicy) (hashing : η) :
    ofConfig {} policy hashing = .ok (empty policy hashing : ValueMap σ η κ ν) := by
  rw [ofConfig, Sizing.ofConfig_default]
  rfl

/-! ### Searching -/

omit [KeyHash η κ] [BEq κ] in
/-- The value that is read from a slot is that of its entry. -/
theorem valueAt?_of_entryAt? (he : m.table.entryAt? EntrySlot.layout i = some (k, v)) :
    m.valueAt? i = v := by
  rw [valueAt?, ValueMap.layout, he]
  rfl

variable [EquivBEq κ]

/-- A search ends at the entry of the key or, where there is none, at a vacant slot. -/
theorem Represents.sought (h : m.Represents hashing policy within M) (hE : LawfulSlots σ hashing)
    (key : κ) :
    Table.Sought EntrySlot.layout (KeyHash.hash hashing) m.table M.entries key (m.locate key) := by
  obtain rfl := h.hashing_eq
  exact h.table.sought hE key

theorem Represents.find?_cases (h : m.Represents hashing policy within M)
    (hE : LawfulSlots σ hashing) (key : κ) :
    (∃ i k v rest, m.find? key = some i ∧ m.table.entryAt? EntrySlot.layout i = some (k, v) ∧
        M.Present key k v rest) ∨
      (m.find? key = none ∧ M.Absent key) := by
  have hsought := h.sought hE key
  generalize hlocate : m.locate key = outcome at hsought
  cases hsought with
  | found entry present => exact Or.inl ⟨_, _, _, _, Table.find?_of_found hlocate, entry, present⟩
  | vacant _ absent => exact Or.inr ⟨Table.find?_of_vacant hlocate, absent⟩

/-- Every search ends. -/
theorem Represents.endless_notMem (h : m.Represents hashing policy within M) (hE : LawfulSlots σ hashing)
    (key : κ) : Probe.endless ∉ [m.locate key] := by
  have hsought := h.sought hE key
  intro hmem
  rw [← List.mem_singleton.mp hmem] at hsought
  cases hsought

omit [EquivBEq κ] in
/-- What is read under a present key is its value, or nothing if that is a null. -/
theorem read_of_present (hp : M.Present key k v rest) : Spec.read M key = v := by
  rw [Spec.read, hp.get?]
  rfl

omit [EquivBEq κ] in
theorem read_of_absent (ha : M.Absent key) : Spec.read M key = none := by
  rw [Spec.read, ha.get?]
  rfl

theorem Represents.get?_eq (h : m.Represents hashing policy within M) (hE : LawfulSlots σ hashing)
    (key : κ) : m.get? key = Spec.read M key := by
  rw [ValueMap.get?]
  obtain ⟨i, k, v, rest, hfind, hentry, hpresent⟩ | ⟨hfind, habsent⟩ := h.find?_cases hE key
  · rw [hfind, read_of_present hpresent]
    exact valueAt?_of_entryAt? hentry
  · rw [hfind, read_of_absent habsent]
    rfl

theorem Represents.distinct (h : m.Represents hashing policy within M) : M.Distinct :=
  h.table.distinct

/-- A lookup also gives the stored key, which need not be the key that was asked for. -/
theorem Represents.lookup?_eq (h : m.Represents hashing policy within M)
    (hE : LawfulSlots σ hashing) (key : κ) : m.lookup? key = M.find? key := by
  have hlookup : m.lookup? key = (m.find? key).bind (m.table.entryAt? EntrySlot.layout) := rfl
  rw [hlookup]
  obtain ⟨i, k, v, rest, hfind, hentry, hpresent⟩ | ⟨hfind, habsent⟩ := h.find?_cases hE key
  · rw [hfind, hpresent.find?]
    exact hentry
  · rw [hfind, habsent.find?]
    rfl

theorem Represents.contains_eq (h : m.Represents hashing policy within M)
    (hE : LawfulSlots σ hashing) (key : κ) : m.contains key = M.contains key := by
  rw [ValueMap.contains]
  obtain ⟨i, k, v, rest, hfind, hentry, hpresent⟩ | ⟨hfind, habsent⟩ := h.find?_cases hE key
  · rw [hfind, hpresent.contains]
    rfl
  · rw [hfind, habsent.contains]
    rfl

omit [EquivBEq κ] in
/-- A key under which a value is read is present; under a present key there may be a null. -/
theorem contains_of_get? (hget : m.get? key = some value) : m.contains key = true := by
  obtain ⟨i, hfind, -⟩ := Option.bind_eq_some_iff.mp hget
  rw [ValueMap.contains, hfind, Option.isSome_some]

omit [EquivBEq κ] in
theorem contains_of_lookup? (hlookup : m.lookup? key = some (k, v)) : m.contains key = true := by
  obtain ⟨i, hfind, -⟩ := Option.bind_eq_some_iff.mp hlookup
  rw [ValueMap.contains, show m.find? key = some i from hfind, Option.isSome_some]

/-- The slot of a present key, and how the other entries lie beside its entry. -/
theorem Represents.exists_found (h : m.Represents hashing policy within M)
    (hE : LawfulSlots σ hashing) (hc : m.contains key = true) :
    ∃ i k v rest, m.locate key = .found i ∧ m.find? key = some i ∧
      m.table.entryAt? EntrySlot.layout i = some (k, v) ∧ M.Present key k v rest := by
  have hsought := h.sought hE key
  generalize hlocate : m.locate key = outcome at hsought
  cases hsought with
  | found entry present => exact ⟨_, _, _, _, rfl, Table.find?_of_found hlocate, entry, present⟩
  | vacant _ absent =>
      rw [h.contains_eq hE, absent.contains] at hc
      contradiction

/-- The slot of an entry that is looked up. -/
theorem Represents.exists_of_lookup? (h : m.Represents hashing policy within M)
    (hE : LawfulSlots σ hashing) (hlookup : m.lookup? key = some (k, v)) :
    ∃ i rest, m.locate key = .found i ∧ m.find? key = some i ∧
      m.table.entryAt? EntrySlot.layout i = some (k, v) ∧ M.Present key k v rest := by
  obtain ⟨i, k', v', rest, hlocate, hfind, hentry, hpresent⟩ :=
    h.exists_found hE (contains_of_lookup? hlookup)
  rw [h.lookup?_eq hE, hpresent.find?] at hlookup
  obtain ⟨rfl, rfl⟩ := Prod.mk.inj (Option.some.inj hlookup)
  exact ⟨i, rest, hlocate, hfind, hentry, hpresent⟩

/-- The slot of an entry is where the search for its key ends. -/
theorem Represents.find?_of_entryAt? (h : m.Represents hashing policy within M)
    (hE : LawfulSlots σ hashing) (he : m.table.entryAt? EntrySlot.layout i = some (k, v))
    (hkey : (k == key) = true) : m.find? key = some i := by
  obtain ⟨j, k', v', rest, hfind, hentry, hpresent⟩ | ⟨-, habsent⟩ := h.find?_cases hE key
  · have hsame : (k' == k) = true := PartialEquivBEq.trans hpresent.same (BEq.symm hkey)
    rw [hfind, h.table.index_unique hE hentry he hsame]
  · have hmem : (k, v) ∈ M.entries :=
      h.table.entries.mem_iff.mp (EntryLayout.mem_entries_iff.mpr ⟨i, hE.lt_size he, he⟩)
    rw [habsent (k, v) hmem] at hkey
    contradiction

/-! ### Changing one slot -/

omit [EquivBEq κ] in
/-- What a slot holds after it was written. -/
theorem valueAt?_setAt (hE : LawfulSlots σ hashing)
    (he : m.table.entryAt? EntrySlot.layout i = some (k, v)) (key : κ) (stored : Option ν) :
    (m.withTable (m.table.setAt i (EntrySlot.layout.occupy (KeyHash.hash hashing key) key
      stored))).valueAt? i = stored := by
  refine valueAt?_of_entryAt? (k := key) ?_
  rw [withTable, Table.entryAt?_setAt_self (hE.lt_size he),
    hE.entryIn?_occupy key stored (EntryLayout.anyEntry key stored)]

omit [EquivBEq κ] in
/-- Writing a value rewrites the slot with the stored key and its hash. -/
theorem Represents.setStoredAt_eq (h : m.Represents hashing policy within M)
    (hE : LawfulSlots σ hashing) (he : m.table.entryAt? EntrySlot.layout i = some (k, v))
    (stored : Option ν) :
    m.setStoredAt i stored = m.withTable
      (m.table.setAt i (EntrySlot.layout.occupy (KeyHash.hash hashing k) k stored)) := by
  rw [ValueMap.setStoredAt, ValueMap.layout, he]
  dsimp only
  rw [h.table.arranged.hash_eq hE he]

/-- A value written into the slot of an entry is an insertion under its key. -/
theorem Represents.setStoredAt (h : m.Represents hashing policy within M)
    (hE : LawfulSlots σ hashing) (he : m.table.entryAt? EntrySlot.layout i = some (k, v))
    (hp : M.Present key k v rest) (stored : Option ν) :
    (m.setStoredAt i stored).Represents hashing policy within (M.insert key stored) ∧
      (m.setStoredAt i stored).valueAt? i = stored := by
  rw [h.setStoredAt_eq hE he]
  have hset := h.table.setAt hE he hp.split BEq.rfl (EntryLayout.anyEntry k stored)
  exact ⟨h.withTable (hset.perm (hp.insert stored).symm), valueAt?_setAt hE he k stored⟩

/-- Removing the slot of an entry is the removal of its key. -/
theorem Represents.eraseAt (h : m.Represents hashing policy within M) (hE : LawfulSlots σ hashing)
    (he : m.table.entryAt? EntrySlot.layout i = some (k, v)) (hp : M.Present key k v rest) :
    (m.eraseAt i).Represents hashing policy within (M.erase key) :=
  h.withTable ((h.table.eraseAt hE he hp.split).perm hp.erase.symm)

/-- Ending a computation on an entry that was taken out: `key'` is the key that the entry gets. -/
theorem Represents.settle (h : m.Represents hashing policy within M) (hE : LawfulSlots σ hashing)
    (he : m.table.entryAt? EntrySlot.layout i = some (k, v)) (hp : M.Present key k v rest)
    {key' : κ} (hkey : (k == key') = true) {keep : ν → FiniteMap κ (Option ν)}
    (hkeep : ∀ value, (keep value).entries.Perm ((key', some value) :: rest)) (value : Option ν) :
    Changes hashing policy within ((m.takeAt i).settle i (KeyHash.hash hashing key') key' value)
      (Spec.settle M key keep value) := by
  cases value with
  | none => exact .done (h.eraseAt hE he hp) none
  | some value =>
      have hset := h.table.setAt hE he hp.split hkey (EntryLayout.anyEntry key' (some value))
      have hvalue := valueAt?_setAt hE he key' (some value)
      -- putting an entry into the slot that was emptied is overwriting it
      have htaken : (m.takeAt i).withTable ((m.takeAt i).table.setAt i
          (EntrySlot.layout.occupy (KeyHash.hash hashing key') key' (some value))) =
            m.withTable (m.table.setAt i
              (EntrySlot.layout.occupy (KeyHash.hash hashing key') key' (some value))) :=
        congrArg m.withTable (Table.setAt_takeAt ..)
      rw [ValueMap.settle]
      rw [htaken, hvalue]
      exact .done (h.withTable (hset.perm (hkeep value).symm)) (some value)

/-- An absent key is put into the vacant slot at which its search ended; the table then grows, or is too small
and cannot. -/
theorem Represents.insertAt (h : m.Represents hashing policy within M) (hE : LawfulSlots σ hashing)
    (hloc : EntryLayout.Located EntrySlot.layout (KeyHash.hash hashing) m.table.slots key (.vacant i))
    (ha : M.Absent key) (stored : Option ν) :
    (∃ j, (m.insertAt i (KeyHash.hash hashing key) key stored).result = .ok j ∧
        (m.insertAt i (KeyHash.hash hashing key) key stored).state.valueAt? j = stored ∧
        (m.insertAt i (KeyHash.hash hashing key) key stored).state.Represents hashing policy within
          (M.insert key stored)) ∨
      ((m.insertAt i (KeyHash.hash hashing key) key stored).result = .error .capacityOverflow ∧
        (m.insertAt i (KeyHash.hash hashing key) key stored).state.Overfull hashing policy within) := by
  have hinsert := h.table.insertAt hE hloc (EntryLayout.anyEntry key stored)
  rcases hinsert with ⟨j, hresult, hentry, hstate⟩ | ⟨hresult, hstate⟩
  · refine Or.inl ⟨j, hresult, valueAt?_of_entryAt? hentry, h.withTable ?_⟩
    rw [ha.insert]
    exact hstate
  · exact Or.inr ⟨hresult, h.hashing_eq, h.policy_eq, hstate⟩

theorem Represents.fill (h : m.Represents hashing policy within M) (hE : LawfulSlots σ hashing)
    (hloc : EntryLayout.Located EntrySlot.layout (KeyHash.hash hashing) m.table.slots key (.vacant i))
    (ha : M.Absent key) (stored : Option ν) :
    Changes hashing policy within ((m.insertAt i (m.hashOf key) key stored).map fun _ => none)
      (.done (M.insert key stored) (none : Option ν)) := by
  rw [hashOf, h.hashing_eq]
  rcases h.insertAt hE hloc ha stored with ⟨j, hresult, -, hstate⟩ | ⟨hresult, hstate⟩
  · exact Or.inl (.of_ok (congrArg (Except.map fun _ => none) hresult) rfl hstate)
  · exact Or.inr ⟨congrArg (Except.map fun _ => none) hresult, hstate⟩

theorem Represents.insertValueAt (h : m.Represents hashing policy within M)
    (hE : LawfulSlots σ hashing)
    (hloc : EntryLayout.Located EntrySlot.layout (KeyHash.hash hashing) m.table.slots key (.vacant i))
    (ha : M.Absent key) (value : ν) :
    Changes hashing policy within (m.insertValueAt i (m.hashOf key) key value)
      (.done (M.insert key (some value)) (some value)) := by
  rw [ValueMap.insertValueAt, hashOf, h.hashing_eq]
  rcases h.insertAt hE hloc ha (some value) with ⟨j, hresult, hvalue, hstate⟩ | ⟨hresult, hstate⟩
  · refine Or.inl (.of_ok ?_ rfl ?_)
    · simp only [Change.andThen, hresult, Change.done, hvalue]
    · simp only [Change.andThen, hresult]
      exact hstate
  · refine Or.inr ?_
    simp only [Change.andThen, hresult]
    exact ⟨trivial, hstate⟩

/-! ### Storing -/

/-- **Storing** overwrites the value of a present key, and inserts an absent one. -/
theorem Represents.store (h : m.Represents hashing policy within M) (hE : LawfulSlots σ hashing)
    (key : κ) (stored : Option ν) :
    Changes hashing policy within (m.store key stored) (Spec.store M key stored) := by
  have hsought := h.sought hE key
  rw [ValueMap.store, Spec.store]
  generalize m.locate key = outcome at hsought
  cases hsought with
  | found entry present =>
      dsimp only
      rw [valueAt?_of_entryAt? entry, read_of_present present]
      exact .done (h.setStoredAt hE entry present stored).1 _
  | vacant located absent =>
      dsimp only
      rw [read_of_absent absent]
      exact h.fill hE located absent stored

/-- Nulls are refused or stored, as the policy says. -/
theorem Represents.insertNull (h : m.Represents hashing policy within M) (hE : LawfulSlots σ hashing)
    (key : κ) :
    Changes hashing policy within (m.insertNull key) (Spec.insertNull M policy key) := by
  rw [ValueMap.insertNull, h.policy_eq]
  cases policy with
  | nonNull => exact .refused h _
  | nullable => exact h.store hE key none

/-- **Storing if absent** leaves a value alone; a null counts as absent. -/
theorem Represents.insertIfAbsent (h : m.Represents hashing policy within M)
    (hE : LawfulSlots σ hashing) :
    Changes hashing policy within (m.insertIfAbsent key value) (Spec.insertIfAbsent M key value) := by
  have hsought := h.sought hE key
  rw [ValueMap.insertIfAbsent, Spec.insertIfAbsent]
  generalize m.locate key = outcome at hsought
  cases hsought with
  | @found _ _ v _ entry present =>
      dsimp only
      rw [valueAt?_of_entryAt? entry, read_of_present present]
      -- only a value under the key is left alone
      cases v with
      | some old => exact .done h _
      | none => exact .done (h.setStoredAt hE entry present _).1 _
  | vacant located absent =>
      dsimp only
      rw [read_of_absent absent]
      exact h.fill hE located absent _

/-- A present key gets a new value, also in the place of a null. -/
theorem Represents.replace (h : m.Represents hashing policy within M) (hE : LawfulSlots σ hashing)
    (key : κ) (value : ν) :
    (m.replace key value).1 = Spec.read M key ∧
      (m.replace key value).2.Represents hashing policy within (Spec.replace M key value) := by
  rw [ValueMap.replace, Spec.replace]
  obtain ⟨i, k, v, rest, hfind, hentry, hpresent⟩ | ⟨hfind, habsent⟩ := h.find?_cases hE key
  · rw [hfind, read_of_present hpresent, if_pos hpresent.contains]
    exact ⟨valueAt?_of_entryAt? hentry, (h.setStoredAt hE hentry hpresent _).1⟩
  · rw [hfind, read_of_absent habsent, if_neg (by simp [habsent.contains])]
    exact ⟨rfl, h⟩

/-- A value is replaced only where it is the one expected, so a null never is. -/
theorem Represents.replaceIf [BEq ν] (h : m.Represents hashing policy within M)
    (hE : LawfulSlots σ hashing) (key : κ) (old new : ν) :
    (m.replaceIf key old new).1 = (Spec.read M key == some old) ∧
      (m.replaceIf key old new).2.Represents hashing policy within (Spec.replaceIf M key old new) := by
  rw [ValueMap.replaceIf, Spec.replaceIf]
  obtain ⟨i, k, v, rest, hfind, hentry, hpresent⟩ | ⟨hfind, habsent⟩ := h.find?_cases hE key
  · simp only [hfind, valueAt?_of_entryAt? hentry, read_of_present hpresent]
    cases hv : v == some old with
    | true => exact ⟨rfl, (h.setStoredAt hE hentry hpresent _).1⟩
    | false => exact ⟨rfl, h⟩
  · rw [hfind, read_of_absent habsent]
    exact ⟨rfl, h⟩

/-- A value is changed where it is; a null is left alone. -/
theorem Represents.modify (h : m.Represents hashing policy within M) (hE : LawfulSlots σ hashing)
    (key : κ) (f : ν → ν) :
    (m.modify key f).1 = (Spec.read M key).map f ∧
      (m.modify key f).2.Represents hashing policy within (Spec.modify M key f) := by
  rw [ValueMap.modify, Spec.modify]
  obtain ⟨i, k, v, rest, hfind, hentry, hpresent⟩ | ⟨hfind, habsent⟩ := h.find?_cases hE key
  · simp only [hfind, valueAt?_of_entryAt? hentry, read_of_present hpresent]
    cases v with
    | none => exact ⟨rfl, h⟩
    | some old => exact ⟨rfl, (h.setStoredAt hE hentry hpresent _).1⟩
  · rw [hfind, read_of_absent habsent]
    exact ⟨rfl, h⟩

/-- Copying another map stores its entries in slot order, nulls included. -/
theorem Represents.insertAll (h : m.Represents hashing policy within M) (hE : LawfulSlots σ hashing)
    (other : ValueMap σ η κ ν) :
    Changes hashing policy within (m.insertAll other)
      (.done (other.entries.foldl (fun M e => M.insert e.1 e.2) M) ()) := by
  rw [← Change.forEach_done]
  exact Change.Tracks.forEach h fun e _ {_ _} hstate => hstate.store hE e.1 e.2

/-- Storing a list stores its entries in order. -/
theorem Represents.extend (h : m.Represents hashing policy within M) (hE : LawfulSlots σ hashing)
    (entries : List (κ × ν)) :
    Changes hashing policy within (m.extend entries)
      (.done (entries.foldl (fun M e => M.insert e.1 (some e.2)) M) ()) := by
  rw [← Change.forEach_done]
  exact Change.Tracks.forEach h fun e _ {_ _} hstate => hstate.store hE e.1 (some e.2)

omit [EquivBEq κ] in
theorem Represents.containsValue_eq [BEq ν] (h : m.Represents hashing policy within M) (value : ν) :
    m.containsValue value = M.entries.any (·.2 == some value) := by
  rw [ValueMap.containsValue, ValueMap.values, List.any_map]
  exact h.table.entries.any_eq

/-! ### Removing -/

/-- A removal gives back the entry with the key that was stored. -/
theorem Represents.eraseEntry (h : m.Represents hashing policy within M) (hE : LawfulSlots σ hashing)
    (key : κ) :
    (m.eraseEntry key).1 = M.find? key ∧
      (m.eraseEntry key).2.Represents hashing policy within (M.erase key) := by
  rw [ValueMap.eraseEntry]
  obtain ⟨i, k, v, rest, hfind, hentry, hpresent⟩ | ⟨hfind, habsent⟩ := h.find?_cases hE key
  · rw [hfind, hpresent.find?]
    exact ⟨hentry, h.eraseAt hE hentry hpresent⟩
  · rw [hfind, habsent.find?, habsent.erase]
    exact ⟨rfl, h⟩

theorem Represents.erase (h : m.Represents hashing policy within M) (hE : LawfulSlots σ hashing)
    (key : κ) :
    (m.erase key).1 = Spec.read M key ∧
      (m.erase key).2.Represents hashing policy within (M.erase key) := by
  obtain ⟨hentry, hstate⟩ := h.eraseEntry hE key
  refine ⟨?_, hstate⟩
  show (m.eraseEntry key).1.bind Prod.snd = (M.get? key).join
  rw [hentry, FiniteMap.get?_eq]
  cases M.find? key <;> rfl

/-- An entry is removed only if its value is the one expected. -/
theorem Represents.eraseIfValue [BEq ν] (h : m.Represents hashing policy within M)
    (hE : LawfulSlots σ hashing) (key : κ) (value : ν) :
    (m.eraseIfValue key value).1 = (Spec.read M key == some value) ∧
      (m.eraseIfValue key value).2.Represents hashing policy within
        (Spec.eraseIfValue M key value) := by
  rw [ValueMap.eraseIfValue, Spec.eraseIfValue]
  obtain ⟨i, k, v, rest, hfind, hentry, hpresent⟩ | ⟨hfind, habsent⟩ := h.find?_cases hE key
  · simp only [hfind, valueAt?_of_entryAt? hentry, read_of_present hpresent]
    cases hv : v == some value with
    | true => exact ⟨rfl, h.eraseAt hE hentry hpresent⟩
    | false => exact ⟨rfl, h⟩
  · rw [hfind, read_of_absent habsent]
    exact ⟨rfl, h⟩

omit [EquivBEq κ] in
theorem Represents.clear (h : m.Represents hashing policy within M) (hE : LawfulSlots σ hashing) :
    m.clear.Represents hashing policy within {} :=
  h.withTable (h.table.clearWith _ hE.entryIn?_leave)

/-- Compaction moves the entries, and changes none. -/
theorem Represents.compact (h : m.Represents hashing policy within M) (hE : LawfulSlots σ hashing) :
    Changes hashing policy within m.compact (.done M ()) := by
  rcases h.table.compact hE with ⟨hresult, hstate⟩ | ⟨hresult, hstate⟩
  · exact .inl (.of_ok hresult rfl (h.withTable hstate))
  · exact .inr ⟨hresult, h.hashing_eq, h.policy_eq, hstate⟩

omit [EquivBEq κ] in
theorem Represents.copy (h : m.Represents hashing policy within M) :
    m.copy.Represents hashing policy within M :=
  h.withTable (h.table.congr rfl rfl rfl)

/-! ### Computing -/

/-- **A computed value** is stored where there is none, unless it is null. -/
theorem Represents.computeIfAbsent {f : κ → Reply (Option ν)}
    (h : m.Represents hashing policy within M) (hE : LawfulSlots σ hashing) :
    Calls hashing policy within (m.computeIfAbsent key f) (Spec.computeIfAbsent M key f) := by
  have hsought := h.sought hE key
  rw [ValueMap.computeIfAbsent, Spec.computeIfAbsent]
  generalize m.locate key = outcome at hsought
  cases hsought with
  | @found _ _ v _ entry present =>
      dsimp only
      rw [valueAt?_of_entryAt? entry, read_of_present present]
      cases v with
      | some old => exact .done h _
      -- a null is computed like an absent value, but its entry keeps its slot
      | none =>
          refine .run h fun computed _ => ?_
          cases computed with
          | none => exact .done h _
          | some value =>
              obtain ⟨hset, hvalue⟩ := h.setStoredAt hE entry present (some value)
              dsimp only
              rw [hvalue]
              exact .done hset _
  | vacant located absent =>
      dsimp only
      rw [read_of_absent absent]
      refine .run h fun computed _ => ?_
      cases computed with
      | none => exact .done h _
      | some value => exact h.insertValueAt hE located absent value

/-- **A value is computed from the former one**, and a null removes the entry. -/
theorem Represents.computeIfPresent {f : κ → ν → Reply (Option ν)}
    (h : m.Represents hashing policy within M) (hE : LawfulSlots σ hashing) :
    Calls hashing policy within (m.computeIfPresent key f) (Spec.computeIfPresent M key f) := by
  have hsought := h.sought hE key
  rw [ValueMap.computeIfPresent, Spec.computeIfPresent]
  generalize m.locate key = outcome at hsought
  cases hsought with
  | @found _ _ v _ entry present =>
      rw [present.find?, ValueMap.layout]
      dsimp only
      rw [entry, h.table.arranged.hash_eq hE entry]
      cases v with
      | none => exact .done h _
      | some old =>
          -- a panic leaves the map without the entry, which was taken out for the call
          exact .run (h.eraseAt hE entry present) fun computed _ =>
            h.settle hE entry present BEq.rfl (fun value => present.insert (some value)) computed
  | vacant _ absent =>
      rw [absent.find?]
      exact .done h _

/-- Ending a computation for an absent key. -/
theorem Represents.settleAbsent (h : m.Represents hashing policy within M)
    (hE : LawfulSlots σ hashing)
    (hloc : EntryLayout.Located EntrySlot.layout (KeyHash.hash hashing) m.table.slots key (.vacant i))
    (ha : M.Absent key) (computed : Option ν) :
    Changes hashing policy within
      (match computed with
        | none => .done m none
        | some value => m.insertValueAt i (m.hashOf key) key value)
      (Spec.settle M key (M.put key ∘ some) computed) := by
  -- when no value is computed for an absent key, nothing is stored
  cases computed with
  | none =>
      rw [Spec.settle, ha.erase]
      exact .done h none
  | some value =>
      rw [Spec.settle, Function.comp, ha.put]
      exact h.insertValueAt hE hloc ha value

/-- **A value is computed for a key**, present or absent; a null removes the entry. -/
theorem Represents.compute {f : κ → Option ν → Reply (Option ν)}
    (h : m.Represents hashing policy within M) (hE : LawfulSlots σ hashing) :
    Calls hashing policy within (m.compute key f) (Spec.compute M key f) := by
  have hsought := h.sought hE key
  rw [ValueMap.compute, Spec.compute]
  generalize m.locate key = outcome at hsought
  cases hsought with
  | found entry present =>
      dsimp only
      rw [valueAt?_of_entryAt? entry, read_of_present present, hashOf, h.hashing_eq]
      -- the entry is out of its slot while the function runs, so a panic removes it
      exact .run (h.eraseAt hE entry present) fun computed _ =>
        h.settle hE entry present present.same (fun value => present.put (some value)) computed
  | vacant located absent =>
      dsimp only
      rw [read_of_absent absent]
      -- nothing was taken out: after a panic the map is what it was
      refine .run (absent.erase.symm ▸ h) fun computed _ => ?_
      exact h.settleAbsent hE located absent computed

/-- **A value is merged with the former one**, or stored where there is none. -/
theorem Represents.merge {f : ν → ν → Reply (Option ν)}
    (h : m.Represents hashing policy within M) (hE : LawfulSlots σ hashing) :
    Calls hashing policy within (m.merge key value f) (Spec.merge M key value f) := by
  have hsought := h.sought hE key
  rw [ValueMap.merge, Spec.merge]
  generalize m.locate key = outcome at hsought
  cases hsought with
  | @found _ _ v _ entry present =>
      have hsettle := h.settle hE entry present present.same fun value => present.put (some value)
      dsimp only
      rw [valueAt?_of_entryAt? entry, read_of_present present, hashOf, h.hashing_eq]
      -- the function is asked only about a value, never about a null
      cases v with
      | some old => exact .run (h.eraseAt hE entry present) fun computed _ => hsettle computed
      | none => exact .quiet (hsettle (some value))
  | vacant located absent =>
      dsimp only
      rw [read_of_absent absent]
      dsimp only
      rw [absent.put]
      exact .quiet (h.insertValueAt hE located absent value)

/-! ### Going through the entries -/

omit [KeyHash η κ] [BEq κ] [EquivBEq κ] in
/-- The entries in the order in which a scan produces them. -/
def scanOrder (m : ValueMap σ η κ ν) : List (κ × Option ν) := m.layout.scanOrder m.table.slots

omit [EquivBEq κ] in
theorem Represents.scanOrder_perm (h : m.Represents hashing policy within M) :
    m.scanOrder.Perm M.entries :=
  (EntryLayout.scanOrder_perm h.table.exists_vacantAt).trans h.table.entries

/-- A sweep asks the predicate in the order of a scan, and removes what it selects. -/
theorem Represents.eraseWhere (h : m.Represents hashing policy within M)
    (hE : LawfulSlots σ hashing) (selects : κ → Option ν → Reply Bool) :
    (m.eraseWhere selects).Agrees (Represents hashing policy within)
      (Spec.eraseWhere m.scanOrder selects) :=
  (h.table.eraseWhere hE selects).within fun _ _ htable => h.withTable htable

theorem Represents.retain (h : m.Represents hashing policy within M) (hE : LawfulSlots σ hashing)
    (keeps : κ → Option ν → Reply Bool) :
    (m.retain keeps).Agrees (Represents hashing policy within) (Spec.retain m.scanOrder keeps) :=
  (h.eraseWhere hE _).map _

/-- A cursor over a map, and the walk that it is. -/
structure Scanned (hashing : η) (policy : NullPolicy) (within : Prop) (c : Cursor σ η κ ν)
    (w : Walk (κ × Option ν) ν) : Prop where
  hashing_eq : c.source.hashing = hashing
  policy_eq : c.source.policy = policy
  /-- Values are written, nulls are not overwritten. -/
  writes_eq : w.writes = (Spec.walk []).writes
  scanning : Table.Scanning EntrySlot.layout (KeyHash.hash hashing) within c.inner w.ahead w.current
    w.behind

omit [EquivBEq κ] in
/-- A new cursor is before all entries, in the order of a scan. -/
theorem Represents.openCursor (h : m.Represents hashing policy within M) :
    Scanned hashing policy within m.openCursor (Spec.walk m.scanOrder) :=
  ⟨h.hashing_eq, h.policy_eq, rfl, h.table.openCursor⟩

omit [EquivBEq κ] in
/-- The map under a cursor stands for the entries that the walk has left. -/
theorem Scanned.map {c : Cursor σ η κ ν} {w : Walk (κ × Option ν) ν}
    (h : Scanned hashing policy within c w) :
    c.map.Represents hashing policy within ⟨w.contents⟩ :=
  ⟨h.hashing_eq, h.policy_eq, h.scanning.contents⟩

/-- A cursor writes under the key where it is, if it is at an entry. -/
theorem Scanned.write {c : Cursor σ η κ ν} {w : Walk (κ × Option ν) ν}
    (h : Scanned hashing policy within c w) (hE : LawfulSlots σ hashing) (value : ν) :
    .ok (c.setValue value).1 = (Walk.write value w).1 ∧
      Scanned hashing policy within (c.setValue value).2 (Walk.write value w).2 := by
  -- whether the entry is null is read off the map, before it is taken apart
  have hmap := h.map
  obtain ⟨hhashing, hpolicy, hwrites, hscanning⟩ := h
  obtain ⟨_, ahead, current, behind⟩ := w
  obtain rfl := hwrites
  dsimp only at hscanning
  rw [Cursor.setValue, Walk.write, Spec.walk]
  dsimp only
  cases current with
  | none =>
      cases hscanning.atEntry with
      | nothing hnone =>
          rw [hnone]
          exact ⟨rfl, hhashing, hpolicy, rfl, hscanning⟩
  | some e =>
      obtain ⟨k, v⟩ := e
      obtain ⟨i, hindex, hentry, hset⟩ :=
        hscanning.setAt hE (EntryLayout.anyEntry k (some value))
      have hvalue : c.map.valueAt? i = v := valueAt?_of_entryAt? hentry
      rw [hindex]
      dsimp only
      rw [hvalue]
      cases v with
      | none => exact ⟨rfl, hhashing, hpolicy, rfl, hscanning⟩
      | some old =>
          dsimp only
          rw [hmap.setStoredAt_eq hE hentry]
          exact ⟨rfl, hhashing, hpolicy, rfl, hset⟩

/-- A cursor over a map is a walk along its entries. -/
theorem follows_walk (hE : LawfulSlots σ hashing) :
    CursorInterface.Follows (Scanned (σ := σ) (κ := κ) (ν := ν) hashing policy within) where
  next {c w} h := by
    obtain ⟨hnext, hscanning⟩ := h.scanning.next
    exact ⟨hnext, h.hashing_eq, h.policy_eq, h.writes_eq, hscanning⟩
  remove {c w} h := by
    obtain ⟨hremoved, hscanning⟩ := h.scanning.remove hE
    exact ⟨hremoved, h.hashing_eq, h.policy_eq, h.writes_eq, hscanning⟩
  write value _ _ h := h.write hE value

/-! ### All operations -/

omit [KeyHash η κ] [BEq κ] [EquivBEq κ] in
/-- The order in which an operation goes through the entries: that of a scan, or that of the slots if it only
shows them. -/
def Operation.order (m : ValueMap σ η κ ν) : Operation σ η κ ν → List (κ × Option ν)
  | forEach _ => m.entries
  | _ => m.scanOrder

omit [EquivBEq κ] in
theorem Represents.order_perm (h : m.Represents hashing policy within M) (op : Operation σ η κ ν) :
    (op.order m).Perm M.entries := by
  cases op with
  | forEach _ => exact h.table.entries
  | _ => exact h.scanOrder_perm

/-- **Every operation does what is specified of it.** -/
theorem Represents.perform [BEq ν] (h : m.Represents hashing policy within M)
    (hE : LawfulSlots σ hashing) (op : Operation σ η κ ν) :
    ∃ d, op.Allows policy M d ∧ Calls hashing policy within (op.perform m) d := by
  refine ⟨_, ⟨op.order m, h.order_perm op, rfl⟩, ?_⟩
  -- the table has a vacant slot, so that the searches in front of the operations all end
  have hends : ∀ key, Probe.endless ∉ [m.locate key] := h.endless_notMem hE
  cases op with
  | get? key =>
      rw [Operation.perform, Call.searching_of_notMem (hends key), h.get?_eq hE]
      exact .done h _
  | contains key =>
      rw [Operation.perform, Call.searching_of_notMem (hends key), h.contains_eq hE]
      exact .done h _
  | containsValue value =>
      rw [Operation.perform, h.containsValue_eq]
      exact .done h _
  | len =>
      rw [Operation.perform, show m.len = M.size from h.table.len_eq_length]
      exact .done h _
  | insert key value => exact .quiet ((h.store hE key _).map _)
  | insertNull key => exact .quiet ((h.insertNull hE key).map _)
  | insertIfAbsent key value => exact .quiet ((h.insertIfAbsent hE).map _)
  | replace key value =>
      obtain ⟨hold, hstate⟩ := h.replace hE key value
      rw [Operation.perform, Call.searching_of_notMem (hends key), hold]
      exact .done hstate _
  | replaceIf key old new =>
      obtain ⟨hanswer, hstate⟩ := h.replaceIf hE key old new
      rw [Operation.perform, Call.searching_of_notMem (hends key), hanswer]
      exact .done hstate _
  | modify key f =>
      obtain ⟨hnew, hstate⟩ := h.modify hE key f
      rw [Operation.perform, Call.searching_of_notMem (hends key), hnew]
      exact .done hstate _
  -- lists are stored entry by entry, up to the first for which there is no room
  | insertAll other => exact .quiet ((h.insertAll hE other).map fun _ => Answer.nothing)
  | extend entries => exact .quiet ((h.extend hE entries).map fun _ => Answer.nothing)
  | erase key =>
      obtain ⟨hold, hstate⟩ := h.erase hE key
      rw [Operation.perform, Call.searching_of_notMem (hends key), hold]
      exact .done hstate _
  | eraseEntry key =>
      obtain ⟨hold, hstate⟩ := h.eraseEntry hE key
      rw [Operation.perform, Call.searching_of_notMem (hends key), hold]
      exact .done hstate _
  | eraseIfValue key value =>
      obtain ⟨hanswer, hstate⟩ := h.eraseIfValue hE key value
      rw [Operation.perform, Call.searching_of_notMem (hends key), hanswer]
      exact .done hstate _
  | eraseWhere selects => exact .inl (((h.eraseWhere hE selects).mapCalls _).map _)
  | retain keeps => exact .inl (((h.retain hE keeps).mapCalls _).map _)
  | forEach f => exact .inl (((Call.Agrees.forEach h _ _).mapCalls _).map _)
  | clear => exact .done (h.clear hE) _
  | compact => exact .quiet ((h.compact hE).map _)
  | copy => exact .done h.copy _
  | computeIfAbsent key f => exact ((h.computeIfAbsent hE).mapCalls _).map _
  | computeIfPresent key f => exact ((h.computeIfPresent hE).mapCalls _).map _
  | compute key f => exact ((h.compute hE).mapCalls _).map _
  | merge key value f => exact ((h.merge hE).mapCalls _).map _
  | cursor script =>
      -- a script is followed step by step by a walk along the order of a scan
      obtain ⟨hanswers, hlast⟩ := (follows_walk hE).runScript script h.openCursor
      rw [Operation.perform, Operation.specify, hanswers]
      exact .done hlast.map _

end LinearProbing.ValueMap
