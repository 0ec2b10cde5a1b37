import LinearProbing.Table
import LinearProbing.Proofs.Slots.CloseGap
import LinearProbing.Proofs.Slots.Rehash

/-!
# LinearProbing.Proofs.Arrangement

**Arrays of entries.** `EntryLayout.Arranged` is the part of the table invariant that speaks of the slots
alone: the array is chained, every slot has the hash of its key, and no two keys are equal. Each change
that tables make to their slots keeps it, and what it does to the entries is said up to order:

* `Arranged.located` — where the search for a key ends, as long as some slot is vacant;
* `Arranged.fill`, `Arranged.replace`, `Arranged.erase` — adding, overwriting and removing one entry;
* `Arranged.rehash` — moving all entries to another number of slots.

The hash of keys and the entries that can be stored are parameters of `EntryLayout.Lawful`: words are
hashed as they are and one value of a word map marks vacant slots, while other keys have a hasher and any
value can be stored.
-/

namespace LinearProbing

namespace EntryLayout

variable {σ κ ν : Type} {E : EntryLayout σ κ ν} {hash : κ → UInt64} {storable : κ → ν → Prop}
variable {slots : Array σ} {s : σ} {i : Nat} {e : κ × ν}

/-! ### Entries -/

/-- The entries of an array, in slot order. -/
def entries (E : EntryLayout σ κ ν) (slots : Array σ) : List (κ × ν) :=
  slots.toList.filterMap E.entryIn?

def entryAt? (E : EntryLayout σ κ ν) (slots : Array σ) (i : Nat) : Option (κ × ν) :=
  E.entryIn? (E.layout.slotAt slots i)

theorem vacant_eq_false (h : E.entryIn? s = some e) : E.layout.vacant s = false := by
  simp [layout, h]

theorem vacantAt_eq_true_iff : E.layout.vacantAt slots i = true ↔ E.entryAt? slots i = none := by
  simp [Layout.vacantAt, layout, entryAt?]

theorem vacantAt_eq_false_iff :
    E.layout.vacantAt slots i = false ↔ ∃ e, E.entryAt? slots i = some e := by
  rw [← Bool.not_eq_true, vacantAt_eq_true_iff, ← ne_eq, Option.ne_none_iff_exists']

theorem vacantAt_of_entryAt? (h : E.entryAt? slots i = some e) :
    E.layout.vacantAt slots i = false :=
  vacantAt_eq_false_iff.mpr ⟨e, h⟩

theorem entries_eq_occupants :
    E.entries slots = (E.layout.occupants slots).filterMap E.entryIn? := by
  rw [entries, Layout.occupants, List.filterMap_filter]
  congr 1
  funext s
  cases h : E.entryIn? s <;> simp [layout, h]

theorem entries_perm {other : Array σ}
    (h : (E.layout.occupants other).Perm (E.layout.occupants slots)) :
    (E.entries other).Perm (E.entries slots) := by
  rw [entries_eq_occupants, entries_eq_occupants]
  exact h.filterMap _

/-- There are as many entries as occupants. -/
theorem length_entries : (E.entries slots).length = (E.layout.occupants slots).length := by
  rw [entries, Layout.occupants, List.length_filterMap_eq_countP, ← List.countP_eq_length_filter]
  refine List.countP_congr fun s _ => ?_
  simp [layout, ← Option.not_isSome]

theorem mem_entries_iff : e ∈ E.entries slots ↔ ∃ i < slots.size, E.entryAt? slots i = some e := by
  simp only [entries, List.mem_filterMap, Array.mem_toList_iff, Array.mem_iff_getElem, entryAt?]
  constructor
  · rintro ⟨s, ⟨i, hi, rfl⟩, he⟩
    exact ⟨i, hi, by rwa [Layout.slotAt_eq_getElem hi]⟩
  · rintro ⟨i, hi, he⟩
    exact ⟨_, ⟨i, hi, rfl⟩, by rwa [Layout.slotAt_eq_getElem hi] at he⟩

/-! ### Lawful layouts -/

variable [BEq κ]

/-- A layout that gives back what is put into a slot, if it can be stored at all, with a hash that agrees
with the equality of keys. -/
structure Lawful (E : EntryLayout σ κ ν) (hash : κ → UInt64) (storable : κ → ν → Prop) : Prop where
  entryIn?_empty : E.entryIn? E.empty = none
  entryIn?_leave : ∀ s, E.entryIn? (E.leave s) = none
  entryIn?_occupy : ∀ k v, storable k v → E.entryIn? (E.occupy (hash k) k v) = some (k, v)
  hash_occupy : ∀ k v, storable k v → E.hash (E.occupy (hash k) k v) = hash k
  hash_congr : ∀ a b : κ, (a == b) = true → hash a = hash b

/-- Every entry can be stored. -/
def AnyEntry {κ ν : Type} (_ : κ) (_ : ν) : Prop := True

theorem anyEntry {κ ν : Type} (key : κ) (value : ν) : AnyEntry key value := trivial

theorem Lawful.layout (h : E.Lawful hash storable) : E.layout.Lawful where
  vacant_empty := by simp [EntryLayout.layout, h.entryIn?_empty]
  vacant_leave s := by simp [EntryLayout.layout, h.entryIn?_leave s]

theorem Lawful.lt_size (hE : E.Lawful hash storable) (h : E.entryAt? slots i = some e) :
    i < slots.size :=
  hE.layout.lt_size (vacantAt_of_entryAt? h)

theorem Lawful.entries_replicate (hE : E.Lawful hash storable) (n : Nat) :
    E.entries (Array.replicate n E.empty) = [] := by
  simp [entries, hE.entryIn?_empty]

/-- An array that holds an entry at an index, as that entry and the others. -/
theorem Lawful.entries_vacate (hE : E.Lawful hash storable) (he : E.entryAt? slots i = some e) :
    (E.entries slots).Perm (e :: E.entries (E.layout.vacate slots i)) := by
  have h := (hE.layout.occupants_vacate (vacantAt_of_entryAt? he)).filterMap E.entryIn?
  rw [entries_eq_occupants, entries_eq_occupants]
  rwa [List.filterMap_cons_some (show E.entryIn? (E.layout.slotAt slots i) = some e from he)] at h

/-! ### Arranged arrays -/

/-- The invariant of the slots of a table. -/
structure Arranged (E : EntryLayout σ κ ν) (hash : κ → UInt64) (slots : Array σ) : Prop where
  /-- All slots on the way from the home of an occupant to its place are occupied. -/
  chained : E.layout.Chained slots
  hashed : ∀ s ∈ E.layout.occupants slots, ∀ e, E.entryIn? s = some e → E.hash s = hash e.1
  distinct : (E.entries slots).Pairwise fun a b => (a.1 == b.1) = false

theorem Arranged.hash_eq (h : E.Arranged hash slots) (hE : E.Lawful hash storable)
    (he : E.entryAt? slots i = some e) : E.hash (E.layout.slotAt slots i) = hash e.1 :=
  h.hashed _ (Layout.mem_occupants_iff.mpr ⟨i, hE.lt_size he, vacantAt_of_entryAt? he, rfl⟩) e he

/-- Where the stored hash is right, comparing it first makes no difference. -/
theorem Arranged.holds_iff (h : E.Arranged hash slots) (hE : E.Lawful hash storable)
    (he : E.entryAt? slots i = some e) (key : κ) :
    E.holds (hash key) key (E.layout.slotAt slots i) = (e.1 == key) := by
  have hentry : E.entryIn? (E.layout.slotAt slots i) = some (e.1, e.2) := he
  rw [holds, hentry, h.hash_eq hE he]
  cases hkey : e.1 == key with
  | false => simp [hkey]
  | true => simp [hkey, hE.hash_congr _ _ hkey]

/-- An array without entries is arranged. -/
theorem arranged_of_entries_nil (E : EntryLayout σ κ ν) (h : E.entries slots = []) :
    E.Arranged hash slots := by
  have hnone : E.layout.occupants slots = [] := by
    rw [← List.length_eq_zero_iff, ← length_entries, h, List.length_nil]
  refine ⟨fun i hi hocc => ?_, fun s hs => ?_, by rw [h]; exact List.Pairwise.nil⟩
  · have := Layout.mem_occupants_iff.mpr ⟨i, hi, hocc, rfl⟩
    rw [hnone] at this
    exact absurd this List.not_mem_nil
  · rw [hnone] at hs
    exact absurd hs List.not_mem_nil

theorem Lawful.arranged_replicate (hE : E.Lawful hash storable) (n : Nat) :
    E.Arranged hash (Array.replicate n E.empty) :=
  E.arranged_of_entries_nil (hE.entries_replicate n)

/-! ### Searching -/

/-- What is known where the search for a key has ended. -/
inductive Located (E : EntryLayout σ κ ν) (hash : κ → UInt64) (slots : Array σ) (key : κ) :
    Probe → Prop
  | found {i : Nat} {k : κ} {v : ν} (entry : E.entryAt? slots i = some (k, v))
      (same : (k == key) = true) : Located E hash slots key (.found i)
  /-- At the first vacant slot from the home of the key on; the key is absent. -/
  | vacant {i : Nat}
      (searched : E.layout.Searched slots (E.holds (hash key) key)
        (homeSlot (hash key).toNat slots.size) (.vacant i))
      (absent : ∀ e ∈ E.entries slots, (e.1 == key) = false) : Located E hash slots key (.vacant i)

/-- **The search for a key** ends at its entry, or at the vacant slot where it belongs. -/
theorem Arranged.located (h : E.Arranged hash slots) (hE : E.Lawful hash storable)
    (hroom : (E.entries slots).length < slots.size) (key : κ) :
    E.Located hash slots key
      (E.layout.probe slots (E.holds (hash key) key) (homeSlot (hash key).toNat slots.size)) := by
  rw [length_entries] at hroom
  have hsearch : E.layout.Searched slots (E.holds (hash key) key)
      (homeSlot (hash key).toNat slots.size) _ :=
    Layout.probe_searched (Layout.exists_vacantAt hroom) (homeSlot_lt (Nat.zero_lt_of_lt hroom))
  generalize E.layout.probe slots (E.holds (hash key) key) (homeSlot (hash key).toNat slots.size)
    = outcome at hsearch ⊢
  cases outcome with
  | found i =>
      cases hsearch with
      | found _ hocc hacc _ =>
          obtain ⟨⟨k, v⟩, he⟩ := vacantAt_eq_false_iff.mp hocc
          exact .found he ((h.holds_iff hE he key).symm.trans hacc)
  | vacant i =>
      refine .vacant hsearch fun e he => ?_
      obtain ⟨p, hp, hep⟩ := mem_entries_iff.mp he
      -- an entry with an equal key has the same home, so the search would have met it
      by_contra hkey
      rw [Bool.not_eq_false] at hkey
      have hhome : E.layout.home slots.size (E.layout.slotAt slots p) =
          homeSlot (hash key).toNat slots.size := by
        rw [Layout.home, ← hE.hash_congr _ _ hkey, ← h.hash_eq hE hep]
        rfl
      have := hsearch.not_accepts h.chained hp (vacantAt_of_entryAt? hep) hhome
      rw [h.holds_iff hE hep, hkey] at this
      exact absurd this (by decide)
  | endless => cases hsearch

/-! ### Adding, overwriting and removing one entry -/

variable [EquivBEq κ]

/-- Distinctness of keys does not depend on the order of the entries. -/
theorem distinct_perm {l l' : List (κ × ν)} (h : l.Perm l') :
    l.Pairwise (fun a b => (a.1 == b.1) = false) ↔ l'.Pairwise (fun a b => (a.1 == b.1) = false) :=
  h.pairwise_iff fun {x y} hxy => by rwa [BEq.comm]

/-- A chained array with the same occupants as an arranged one is arranged. -/
theorem Arranged.of_occupants (h : E.Arranged hash slots) {other : Array σ}
    (hchained : E.layout.Chained other)
    (hperm : (E.layout.occupants other).Perm (E.layout.occupants slots)) :
    E.Arranged hash other where
  chained := hchained
  hashed s hs := h.hashed s (hperm.mem_iff.mp hs)
  distinct := (distinct_perm (entries_perm hperm)).mpr h.distinct

variable {key : κ} {value : ν}

/-- Filling the slot at which the search for an absent key ended. -/
theorem Arranged.fill (h : E.Arranged hash slots) (hE : E.Lawful hash storable)
    (hloc : E.Located hash slots key (.vacant i)) (hs : storable key value) :
    E.Arranged hash (slots.setIfInBounds i (E.occupy (hash key) key value)) ∧
      (E.entries (slots.setIfInBounds i (E.occupy (hash key) key value))).Perm
        ((key, value) :: E.entries slots) := by
  cases hloc with
  | vacant hsearch habsent =>
      have hentry := hE.entryIn?_occupy key value hs
      have hhash := hE.hash_occupy key value hs
      -- from here on only the entry of the slot and its hash count, not how it was made
      generalize E.occupy (hash key) key value = s at hentry hhash ⊢
      have hocc : E.layout.vacant s = false := vacant_eq_false hentry
      have hhome : E.layout.home slots.size s = homeSlot (hash key).toNat slots.size := by
        rw [Layout.home, ← hhash]
        rfl
      have hchained := h.chained.fill hocc (hhome ▸ hsearch)
      cases hsearch with
      | vacant hi hvac _ =>
          have hadd := Layout.occupants_fill hi hvac hocc
          have hperm : (E.entries (slots.setIfInBounds i s)).Perm ((key, value) :: E.entries slots) := by
            have := hadd.filterMap E.entryIn?
            rw [entries_eq_occupants, entries_eq_occupants]
            rwa [List.filterMap_cons_some hentry] at this
          refine ⟨⟨hchained, ?_, ?_⟩, hperm⟩
          · intro x hx e he
            rcases List.mem_cons.mp (hadd.mem_iff.mp hx) with rfl | hx
            · obtain rfl := Option.some.inj (hentry.symm.trans he)
              exact hhash
            · exact h.hashed x hx e he
          · -- the search has ended at a vacant slot, so no entry has an equal key
            rw [distinct_perm hperm]
            refine List.pairwise_cons.mpr ⟨fun e he => ?_, h.distinct⟩
            rw [BEq.comm]
            exact habsent e he

/-- Overwriting an entry by one under an equal key. The entries are the new one and those that were
beside the old one. -/
theorem Arranged.replace (h : E.Arranged hash slots) (hE : E.Lawful hash storable)
    (he : E.entryAt? slots i = some e) (hkey : (e.1 == key) = true)
    (hs : storable key value) :
    E.Arranged hash (slots.setIfInBounds i (E.occupy (hash key) key value)) ∧
      (E.entries (slots.setIfInBounds i (E.occupy (hash key) key value))).Perm
        ((key, value) :: E.entries (E.layout.vacate slots i)) := by
  have hentry := hE.entryIn?_occupy key value hs
  have hhash := hE.hash_occupy key value hs
  generalize E.occupy (hash key) key value = s at hentry hhash ⊢
  have hocc : E.layout.vacant s = false := vacant_eq_false hentry
  have hold := vacantAt_of_entryAt? he
  have hi := hE.lt_size he
  have hput := hE.layout.occupants_replace hold hocc
  have hrest := hE.layout.occupants_vacate hold
  have hperm : (E.entries (slots.setIfInBounds i s)).Perm
      ((key, value) :: E.entries (E.layout.vacate slots i)) := by
    have := hput.filterMap E.entryIn?
    rw [entries_eq_occupants, entries_eq_occupants]
    rwa [List.filterMap_cons_some hentry] at this
  -- equal keys have equal hashes, so the new entry is reached from its home like the old one
  have hsame : E.hash s = E.hash (E.layout.slotAt slots i) := by
    rw [hhash, h.hash_eq hE he, hE.hash_congr _ _ hkey]
  refine ⟨⟨h.chained.replace hi hold hocc (congrArg UInt64.toNat hsame), ?_, ?_⟩, hperm⟩
  · intro x hx e he
    rcases List.mem_cons.mp (hput.mem_iff.mp hx) with rfl | hx
    · obtain rfl := Option.some.inj (hentry.symm.trans he)
      exact hhash
    · exact h.hashed x (hrest.mem_iff.mpr (List.mem_cons_of_mem _ hx)) e he
  · have hdistinct := (distinct_perm (hE.entries_vacate he)).mp h.distinct
    rw [List.pairwise_cons] at hdistinct
    rw [distinct_perm hperm]
    refine List.pairwise_cons.mpr ⟨fun x hx => ?_, hdistinct.2⟩
    rw [← BEq.congr_left hkey]
    exact hdistinct.1 x hx

/-- Removing an entry and closing the gap, with what is left and what has not changed. -/
theorem Arranged.erase (h : E.Arranged hash slots) (hE : E.Lawful hash storable)
    (he : E.entryAt? slots i = some e) (hroom : (E.entries slots).length < slots.size) :
    E.Arranged hash (E.layout.closeGap (E.layout.vacate slots i) i) ∧
      (E.entries slots).Perm (e :: E.entries (E.layout.closeGap (E.layout.vacate slots i) i)) := by
  rw [length_entries] at hroom
  have hocc := vacantAt_of_entryAt? he
  -- the gap is closed up to a vacant slot, and one exists as the table is not full
  obtain ⟨v, hv, hvac⟩ := Layout.exists_vacantAt hroom
  have hclosed := Layout.erase_closed hE.layout h.chained hocc hv hvac
  have hperm := hE.entries_vacate he
  have hrest := hE.layout.occupants_vacate hocc
  have hkept := entries_perm hclosed.occupants
  refine ⟨⟨hclosed.chained, ?_, ?_⟩, hperm.trans (hkept.symm.cons e)⟩
  · intro x hx e he
    have hx := hclosed.occupants.mem_iff.mp hx
    exact h.hashed x (hrest.mem_iff.mpr (List.mem_cons_of_mem _ hx)) e he
  · rw [distinct_perm hkept]
    exact (List.pairwise_cons.mp ((distinct_perm hperm).mp h.distinct)).2

/-- Moving all entries to a number of slots that is greater than theirs. -/
theorem Arranged.rehash (h : E.Arranged hash slots) (hE : E.Lawful hash storable)
    {capacity : Nat} (tracked : Nat) (hroom : (E.entries slots).length < capacity) :
    (E.layout.rehash slots capacity tracked).1.size = capacity ∧
      E.Arranged hash (E.layout.rehash slots capacity tracked).1 ∧
        (E.entries (E.layout.rehash slots capacity tracked).1).Perm (E.entries slots) := by
  rw [length_entries] at hroom
  obtain ⟨hsize, hchained, hperm⟩ :=
    @Layout.rehash_rebuilt _ _ slots hE.layout capacity tracked hroom
  exact ⟨hsize, h.of_occupants hchained hperm, entries_perm hperm⟩

omit [EquivBEq κ] in
/-- The tracked entry is found at its new slot. -/
theorem Lawful.entryAt?_rehash (hE : E.Lawful hash storable) {capacity : Nat}
    (hroom : (E.entries slots).length < capacity) (he : E.entryAt? slots i = some e) :
    E.entryAt? (E.layout.rehash slots capacity i).1 (E.layout.rehash slots capacity i).2 =
      some e := by
  rw [length_entries] at hroom
  rw [entryAt?, Layout.rehash_tracked hE.layout hroom (vacantAt_of_entryAt? he)]
  exact he

end EntryLayout

end LinearProbing
