import LinearProbing.Proofs.Represents
import LinearProbing.Proofs.Scan

/-!
# LinearProbing.Proofs.Invariant

**The table invariant, slot by slot.** `Table.Invariant` says in terms of slots and numbers what
`Table.Sound` says in terms of entries and arrangements: what the capacity and the threshold are, that the
occupied slots are counted, that no key occurs twice, and that all slots on the walk from the home of an
entry to its slot are occupied. `Table.Consistent` is the same without the bound on the number of entries,
and is what a table that could not grow still satisfies.
-/

namespace LinearProbing

namespace EntryLayout.Arranged

variable {σ κ ν : Type} [BEq κ] {E : EntryLayout σ κ ν} {hash : κ → UInt64} {storable : κ → ν → Prop}
variable {slots : Array σ} {i j : Nat} {e f : κ × ν}

/-- No two slots of an arranged array hold equal keys. -/
theorem index_unique [EquivBEq κ] (h : E.Arranged hash slots) (hE : E.Lawful hash storable)
    (he : E.entryAt? slots i = some e) (hf : E.entryAt? slots j = some f) (hkey : (e.1 == f.1) = true) :
    i = j := by
  have hi := hE.lt_size he
  have hj := hE.lt_size hf
  have hdistinct := List.pairwise_iff_getElem.mp (List.pairwise_filterMap.mp h.distinct)
  have hat : ∀ {i e}, (hi : i < slots.size) → E.entryAt? slots i = some e →
      E.entryIn? (slots.toList.get ⟨i, hi⟩) = some e := by
    intro i e hi he
    rwa [entryAt?, Layout.slotAt_eq_getElem hi] at he
  rcases Nat.lt_trichotomy i j with hlt | heq | hgt
  · have := hdistinct i j hi hj hlt e (hat hi he) f (hat hj hf)
    exact absurd (hkey.symm.trans this) (by decide)
  · exact heq
  · have := hdistinct j i hj hi hgt f (hat hj hf) e (hat hi he)
    exact absurd ((BEq.symm hkey).symm.trans this) (by decide)

/-- Every slot on the walk from the home of an entry to its slot is occupied. -/
theorem reached (h : E.Arranged hash slots) (hE : E.Lawful hash storable)
    (he : E.entryAt? slots i = some e) :
    ∃ steps < slots.size, i = offsetSlot slots.size (homeSlot (hash e.1).toNat slots.size) steps ∧
      ∀ g ≤ steps, ∃ f,
        E.entryAt? slots (offsetSlot slots.size (homeSlot (hash e.1).toNat slots.size) g) = some f := by
  have hi := hE.lt_size he
  have hhome : homeSlot (hash e.1).toNat slots.size < slots.size := homeSlot_lt (Nat.zero_lt_of_lt hi)
  have hsteps := distance_lt hhome hi
  refine ⟨_, hsteps, (offsetSlot_distance hhome hi).symm, fun g hg => ?_⟩
  -- the last slot of the walk holds the entry itself, the others are on its way
  rcases Nat.eq_or_lt_of_le hg with rfl | hlt
  · rw [offsetSlot_distance hhome hi]
    exact ⟨e, he⟩
  have hsize := Nat.lt_trans hlt hsteps
  refine vacantAt_eq_false_iff.mp (h.chained i hi (vacantAt_of_entryAt? he) _ (offsetSlot_lt hsize) ?_)
  have hslot : E.layout.home slots.size (E.layout.slotAt slots i) =
      homeSlot (hash e.1).toNat slots.size := by
    rw [← h.hash_eq hE he]
    rfl
  rw [hslot, OnWay, distance_offsetSlot hhome hsize]
  exact hlt

end EntryLayout.Arranged

namespace Table

open EntryLayout (Lawful)

variable {σ κ ν : Type} [BEq κ]
variable {E : EntryLayout σ κ ν} {hash : κ → UInt64} {storable : κ → ν → Prop} {within : Prop}
variable {t : Table σ} {i j : Nat} {e f : κ × ν}

/-- The table invariant slot by slot, but for the bound on the number of entries. -/
structure Consistent (E : EntryLayout σ κ ν) (hash : κ → UInt64) (t : Table σ) : Prop where
  /-- The capacity is a power of two from 8 to 2^62. -/
  capacity_eq : ∃ k, 3 ≤ k ∧ k ≤ 62 ∧ t.capacity = 2 ^ k
  /-- It is the number of slots. -/
  size_eq : t.slots.size = t.capacity
  /-- The occupied slots are counted. -/
  count_eq : t.slots.toList.countP (fun s => (E.entryIn? s).isSome) = t.len
  /-- The threshold is the product of capacity and load factor, rounded down. -/
  threshold_eq :
    t.sizing.threshold = ((t.capacity : Rat) * t.sizing.loadFactor.value).floor.toNat
  /-- It is below the capacity. -/
  threshold_lt : t.sizing.threshold < t.capacity
  /-- No two slots hold equal keys. -/
  distinct : ∀ {i j e f}, t.entryAt? E i = some e → t.entryAt? E j = some f →
    (e.1 == f.1) = true → i = j
  /-- Every slot on the walk from the home of an entry to its slot is occupied. -/
  reached : ∀ {i e}, t.entryAt? E i = some e → ∃ steps < t.capacity,
    i = (homeSlot (hash e.1).toNat t.capacity + steps) % t.capacity ∧
      ∀ g ≤ steps, ∃ f,
        t.entryAt? E ((homeSlot (hash e.1).toNat t.capacity + g) % t.capacity) = some f
  /-- The hash in a slot is the hash of its key. -/
  hashed : ∀ {i e}, t.entryAt? E i = some e → E.hash (E.layout.slotAt t.slots i) = hash e.1

/-- **The table invariant**, slot by slot. -/
structure Invariant (E : EntryLayout σ κ ν) (hash : κ → UInt64) (t : Table σ) : Prop
    extends Consistent E hash t where
  /-- There are no more entries than the threshold allows. -/
  len_le : t.len ≤ t.sizing.threshold

variable [EquivBEq κ]

theorem WellFormed.index_unique (h : t.WellFormed E hash) (hE : E.Lawful hash storable)
    (he : t.entryAt? E i = some e) (hf : t.entryAt? E j = some f) (hkey : (e.1 == f.1) = true) :
    i = j :=
  h.arranged.index_unique hE he hf hkey

omit [EquivBEq κ] in
theorem WellFormed.reached (h : t.WellFormed E hash) (hE : E.Lawful hash storable)
    (he : t.entryAt? E i = some e) :
    ∃ steps < t.slots.size, i = offsetSlot t.slots.size (homeSlot (hash e.1).toNat t.slots.size) steps ∧
      ∀ g ≤ steps, ∃ f,
        t.entryAt? E (offsetSlot t.slots.size (homeSlot (hash e.1).toNat t.slots.size) g) = some f :=
  h.arranged.reached hE he

theorem WellFormed.consistent (h : t.WellFormed E hash) (hE : E.Lawful hash storable) :
    t.Consistent E hash where
  capacity_eq := h.sizing.capacity
  size_eq := h.size_eq
  count_eq := by
    rw [h.len_eq, entries, List.length_filterMap_eq_countP]
  threshold_eq := h.sizing.threshold_eq
  threshold_lt := h.sizing.threshold_lt_capacity
  distinct he hf hkey := h.index_unique hE he hf hkey
  reached he := by
    have hreached := h.reached hE he
    rwa [h.size_eq] at hreached
  hashed he := h.arranged.hash_eq hE he

theorem Sound.invariant (h : t.Sound E hash) (hE : E.Lawful hash storable) : t.Invariant E hash :=
  ⟨h.toWellFormed.consistent hE, h.len_le⟩

end Table

end LinearProbing
