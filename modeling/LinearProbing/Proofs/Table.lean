import LinearProbing.Proofs.Arrangement
import LinearProbing.Proofs.Sizing

/-!
# LinearProbing.Proofs.Table

**The table invariant.** `Table.Sound` is what holds of a table between any two operations: its sizing is
valid, its array has that many slots and is arranged, it counts its entries, and there are no more of them
than the threshold allows. `Table.WellFormed` is the same without the last condition; it also holds while
an insertion has not grown the table yet, and after one that could not.

Each change of a table has one lemma, which says that the invariant is kept and what happens to the
entries, up to order. Containers use these lemmas and never look into slots.
-/

namespace LinearProbing.Table

open EntryLayout (Lawful Arranged Located)

variable {σ κ ν : Type} {E : EntryLayout σ κ ν} {hash : κ → UInt64} {storable : κ → ν → Prop}
variable {within : Prop} {t : Table σ} {i : Nat} {e : κ × ν} {key : κ} {value : ν}

theorem entries_eq : t.entries E = E.entries t.slots := rfl

theorem entryAt?_eq : t.entryAt? E i = E.entryAt? t.slots i := rfl

theorem entryAt?_setAt_self (hi : i < t.slots.size) (slot : σ) :
    (t.setAt i slot).entryAt? E i = E.entryIn? slot := by
  rw [entryAt?_eq, EntryLayout.entryAt?, Table.setAt, Layout.slotAt_setIfInBounds_self hi]

/-- Filling the gap of an entry that was taken out is overwriting it. -/
theorem setAt_takeAt (slot : σ) : (t.takeAt E i).setAt i slot = t.setAt i slot := by
  simp [takeAt, Table.setAt, Layout.vacate]

/-- The table in the state in which it looks for room: a new entry is in a vacant slot and counted, so that
there may be one too many. -/
def withEntry (t : Table σ) (index : Nat) (slot : σ) : Table σ :=
  { t.setAt index slot with len := t.len + 1 }

/-! ### The invariant -/

variable [BEq κ]

/-- The table invariant, but for the threshold. -/
structure WellFormed (E : EntryLayout σ κ ν) (hash : κ → UInt64) (t : Table σ) : Prop where
  /-- The capacity is a power of two in range, and the threshold follows from the load factor. -/
  sizing : t.sizing.Valid
  size_eq : t.slots.size = t.sizing.capacity
  /-- Entries are reached from their homes, have the hashes of their keys, and distinct keys. -/
  arranged : E.Arranged hash t.slots
  len_eq : t.len = (t.entries E).length

/-- **The table invariant.** -/
structure Sound (E : EntryLayout σ κ ν) (hash : κ → UInt64) (t : Table σ) : Prop
    extends WellFormed E hash t where
  /-- There are no more entries than the threshold allows. -/
  len_le : t.len ≤ t.sizing.threshold

/-- A table on which operations work: some slot is vacant, so every search ends. That there are no more
entries than the threshold allows is only promised `within` the rules, that is as long as no insertion
has failed to grow the table. -/
structure Usable (E : EntryLayout σ κ ν) (hash : κ → UInt64) (within : Prop) (t : Table σ) : Prop
    extends WellFormed E hash t where
  len_lt : t.len < t.slots.size
  /-- There are no more entries than the threshold allows. -/
  len_le : within → t.len ≤ t.sizing.threshold

theorem WellFormed.len_lt (h : t.WellFormed E hash) (hlen : t.len ≤ t.sizing.threshold) :
    t.len < t.slots.size := by
  rw [h.size_eq]
  exact Nat.lt_of_le_of_lt hlen h.sizing.threshold_lt_capacity

theorem WellFormed.usable (h : t.WellFormed E hash) (hlen : t.len ≤ t.sizing.threshold) :
    t.Usable E hash within :=
  ⟨h, h.len_lt hlen, fun _ => hlen⟩

theorem Sound.usable (h : t.Sound E hash) : t.Usable E hash within :=
  h.toWellFormed.usable h.len_le

theorem Usable.sound (h : t.Usable E hash True) : t.Sound E hash :=
  ⟨h.toWellFormed, h.len_le trivial⟩

theorem WellFormed.size_pos (h : t.WellFormed E hash) : 0 < t.slots.size := by
  rw [h.size_eq]
  exact h.sizing.capacity_pos

/-- Whether a table is well-formed does not depend on the state of a scan. -/
theorem WellFormed.congr {u : Table σ} (h : t.WellFormed E hash) (hsizing : u.sizing = t.sizing)
    (hslots : u.slots = t.slots) (hlen : u.len = t.len) : u.WellFormed E hash where
  sizing := hsizing ▸ h.sizing
  size_eq := by rw [hslots, hsizing, h.size_eq]
  arranged := hslots ▸ h.arranged
  len_eq := by rw [entries_eq, hlen, hslots, h.len_eq, entries_eq]

theorem Usable.congr {u : Table σ} (h : t.Usable E hash within) (hsizing : u.sizing = t.sizing)
    (hslots : u.slots = t.slots) (hlen : u.len = t.len) : u.Usable E hash within where
  toWellFormed := h.toWellFormed.congr hsizing hslots hlen
  len_lt := by rw [hlen, hslots]; exact h.len_lt
  len_le := by rw [hlen, hsizing]; exact h.len_le

theorem entries_ofSizing (hE : E.Lawful hash storable) (sizing : Sizing) (mode : IterationMode) :
    (ofSizing E sizing mode).entries E = [] :=
  hE.entries_replicate sizing.capacity

/-- A new table satisfies the invariant. -/
theorem sound_ofSizing (hE : E.Lawful hash storable) {sizing : Sizing} (hs : sizing.Valid)
    (mode : IterationMode) : (ofSizing E sizing mode).Sound E hash where
  sizing := hs
  size_eq := Array.size_replicate
  arranged := hE.arranged_replicate sizing.capacity
  len_eq := by rw [entries_ofSizing hE]; rfl
  len_le := Nat.zero_le _

/-! ### Searching -/

/-- The search for a key ends, as long as a slot is vacant. -/
theorem WellFormed.located (h : t.WellFormed E hash) (hE : E.Lawful hash storable)
    (hroom : t.len < t.slots.size) (key : κ) :
    E.Located hash t.slots key (t.locate E (hash key) key) :=
  h.arranged.located hE (by rw [← entries_eq, ← h.len_eq]; exact hroom) key

/-! ### Overwriting and removing -/

variable [EquivBEq κ]

theorem WellFormed.setAt (h : t.WellFormed E hash) (hE : E.Lawful hash storable)
    (he : t.entryAt? E i = some e) (hkey : (e.1 == key) = true) (hs : storable key value) :
    (t.setAt i (E.occupy (hash key) key value)).WellFormed E hash ∧
      ((t.setAt i (E.occupy (hash key) key value)).entries E).Perm
        ((key, value) :: (t.takeAt E i).entries E) := by
  obtain ⟨harranged, hperm⟩ := h.arranged.replace hE he hkey hs
  refine ⟨⟨h.sizing, ?_, harranged, ?_⟩, hperm⟩
  · exact (Array.size_setIfInBounds).trans h.size_eq
  · have hold := (hE.entries_vacate he).length_eq
    have hnew := hperm.length_eq
    have hlen := h.len_eq
    simp only [entries_eq, List.length_cons] at hold hnew hlen
    show t.len = (E.entries (t.slots.setIfInBounds i (E.occupy (hash key) key value))).length
    rw [hnew, hlen, hold]

theorem Usable.setAt (h : t.Usable E hash within) (hE : E.Lawful hash storable)
    (he : t.entryAt? E i = some e) (hkey : (e.1 == key) = true) (hs : storable key value) :
    (t.setAt i (E.occupy (hash key) key value)).Usable E hash within where
  toWellFormed := (h.toWellFormed.setAt hE he hkey hs).1
  len_lt := h.len_lt.trans_eq Array.size_setIfInBounds.symm
  len_le := h.len_le

theorem WellFormed.eraseAt (h : t.WellFormed E hash) (hE : E.Lawful hash storable)
    (hroom : t.len < t.slots.size) (he : t.entryAt? E i = some e) :
    (t.eraseAt E i).WellFormed E hash ∧ (t.entries E).Perm (e :: (t.eraseAt E i).entries E) := by
  have hlen := h.len_eq
  have hroom' : (E.entries t.slots).length < t.slots.size := by rwa [← entries_eq, ← hlen]
  obtain ⟨harranged, hperm⟩ := h.arranged.erase hE he hroom'
  refine ⟨⟨h.sizing, ?_, harranged, ?_⟩, hperm⟩
  · -- any vacant slot will do as the end of the run
    rw [EntryLayout.length_entries] at hroom'
    obtain ⟨v, hv, hvac⟩ := Layout.exists_vacantAt hroom'
    have hclosed := Layout.erase_closed hE.layout h.arranged.chained
      (EntryLayout.vacantAt_of_entryAt? he) hv hvac
    exact (hclosed.size_eq.trans Layout.size_vacate).trans h.size_eq
  · have hcons := hperm.length_eq
    rw [List.length_cons] at hcons
    show t.len - 1 = _
    rw [hlen, entries_eq, hcons]
    rfl

theorem Usable.eraseAt (h : t.Usable E hash within) (hE : E.Lawful hash storable)
    (he : t.entryAt? E i = some e) : (t.eraseAt E i).Usable E hash within := by
  obtain ⟨hwell, -⟩ := h.toWellFormed.eraseAt hE h.len_lt he
  have hless : (t.eraseAt E i).len ≤ t.len := Nat.sub_le t.len 1
  refine ⟨hwell, ?_, fun hw => hless.trans (h.len_le hw)⟩
  rw [hwell.size_eq, show (t.eraseAt E i).sizing = t.sizing from rfl, ← h.size_eq]
  exact Nat.lt_of_le_of_lt hless h.len_lt

/-! ### Moving to another size -/

/-- Moving all entries to a valid size above their number. -/
theorem WellFormed.rehash (h : t.WellFormed E hash) (hE : E.Lawful hash storable) {sizing : Sizing}
    (hs : sizing.Valid) (hroom : t.len < sizing.capacity) (tracked : Nat) :
    (t.rehash E sizing tracked).1.WellFormed E hash ∧
      ((t.rehash E sizing tracked).1.entries E).Perm (t.entries E) := by
  have hlen := h.len_eq
  obtain ⟨hsize, harranged, hperm⟩ := h.arranged.rehash hE tracked
    (by rw [← entries_eq, ← hlen]; exact hroom)
  exact ⟨⟨hs, hsize, harranged, hlen.trans hperm.length_eq.symm⟩, hperm⟩

/-- What a compaction can do. -/
inductive Compaction (E : EntryLayout σ κ ν) (t : Table σ) : Change (Table σ) Unit → Prop
  /-- It moves the entries to a smaller table. -/
  | moves {sizing : Sizing} (found : t.sizing.compactedFor? t.len = some sizing)
      (smaller : sizing.capacity < t.capacity) :
      Compaction E t
        { result := .ok (), state := (t.rehash E sizing 0).1
          events := [.rehashed .compact t.capacity sizing.capacity t.len] }
  /-- What it finds is not smaller. -/
  | stays {sizing : Sizing} (found : t.sizing.compactedFor? t.len = some sizing)
      (least : t.capacity ≤ sizing.capacity) : Compaction E t (.done t ())
  /-- It finds no size that is large enough. -/
  | fails (found : t.sizing.compactedFor? t.len = none) : Compaction E t (.fail t .capacityOverflow)

omit [BEq κ] [EquivBEq κ] in
theorem compaction (E : EntryLayout σ κ ν) (t : Table σ) : Compaction E t (t.compact E) := by
  unfold Table.compact
  split
  · next hnone => exact .fails hnone
  · next sizing hsome =>
    split
    · next hlt => exact .moves hsome hlt
    · next hge => exact .stays hsome (Nat.le_of_not_lt hge)

/-- Compaction keeps the entries, and leaves the table as it is unless they fit into what it leaves. -/
theorem WellFormed.compact (h : t.WellFormed E hash) (hE : E.Lawful hash storable) :
    (t.compact E).state.WellFormed E hash ∧ ((t.compact E).state.entries E).Perm (t.entries E) ∧
      ((t.compact E).state = t ∨ (t.compact E).state.len ≤ (t.compact E).state.sizing.threshold) := by
  have hcompaction := t.compaction E
  generalize t.compact E = c at hcompaction ⊢
  cases hcompaction with
  | moves found smaller =>
      obtain ⟨-, hlen, hvalid⟩ := h.sizing.of_compactedFor? found
      obtain ⟨hwell, hperm⟩ := h.rehash hE (hvalid smaller)
        (Nat.lt_of_le_of_lt hlen (hvalid smaller).threshold_lt_capacity) 0
      exact ⟨hwell, hperm, Or.inr hlen⟩
  | stays | fails => exact ⟨h, List.Perm.refl _, Or.inl rfl⟩

theorem Usable.compact (h : t.Usable E hash within) (hE : E.Lawful hash storable) :
    (t.compact E).state.Usable E hash within := by
  obtain ⟨hwell, -, heq | hlen⟩ := h.toWellFormed.compact hE
  · rw [heq]
    exact h
  · exact hwell.usable hlen

/-! ### Inserting -/

/-- What an insertion leaves: the new entry is in the table in any case. Either the table has room for it,
or it cannot grow far enough, and then it has one entry more than its threshold allows. -/
structure Inserted (E : EntryLayout σ κ ν) (hash : κ → UInt64) (t : Table σ) (e : κ × ν)
    (c : Change (Table σ) Nat) : Prop where
  /-- The invariant holds but for the threshold. -/
  wellFormed : c.state.WellFormed E hash
  entries : (c.state.entries E).Perm (e :: t.entries E)
  len_eq : c.state.len = t.len + 1
  /-- The insertion succeeds if the entries fit, and says where the new one is. Otherwise there is no
  size to which the table could grow. -/
  outcome : (∃ j, c.result = .ok j ∧ c.state.entryAt? E j = some e ∧
      c.state.len ≤ c.state.sizing.threshold) ∨
    (c.result = .error .capacityOverflow ∧ c.state.sizing = t.sizing ∧
      t.sizing.threshold < t.len + 1 ∧ t.sizing.grownFor? (t.len + 1) = none)

omit [BEq κ] in
/-- Whatever is in the table, an insertion fails in one way only. -/
theorem failure_of_insertAt {slot : σ} {failure : Failure}
    (h : (t.insertAt E i slot).result = .error failure) : failure = .capacityOverflow := by
  unfold Table.insertAt at h
  dsimp only at h
  split at h
  · split at h
    · exact (Except.error.inj h).symm
    · cases h
  · cases h

/-- A new entry is in its slot and counted before the table looks for room. -/
theorem WellFormed.fill (h : t.WellFormed E hash) (hE : E.Lawful hash storable)
    (hloc : E.Located hash t.slots key (.vacant i)) (hs : storable key value) :
    (t.withEntry i (E.occupy (hash key) key value)).WellFormed E hash ∧
      ((t.setAt i (E.occupy (hash key) key value)).entries E).Perm ((key, value) :: t.entries E) ∧
        (t.setAt i (E.occupy (hash key) key value)).entryAt? E i = some (key, value) := by
  obtain ⟨harranged, hperm⟩ := h.arranged.fill hE hloc hs
  refine ⟨⟨h.sizing, (Array.size_setIfInBounds).trans h.size_eq, harranged, ?_⟩, hperm, ?_⟩
  · have := hperm.length_eq
    rw [List.length_cons, ← entries_eq, ← h.len_eq] at this
    exact this.symm
  · have hi : i < t.slots.size := by
      cases hloc with
      | vacant hsearch _ =>
          cases hsearch with
          | vacant hi _ _ => exact hi
    rw [entryAt?_setAt_self hi, hE.entryIn?_occupy key value hs]

theorem WellFormed.insertAt (h : t.WellFormed E hash) (hE : E.Lawful hash storable)
    (hloc : E.Located hash t.slots key (.vacant i)) (hs : storable key value) :
    Inserted E hash t (key, value) (t.insertAt E i (E.occupy (hash key) key value)) := by
  obtain ⟨hfilled, hperm, hnew⟩ := h.fill hE hloc hs
  unfold Table.insertAt
  dsimp only
  split
  · -- over the threshold: the table grows and the entry moves with the rest, or there is no capacity left and
    -- the filled table stands
    next hexceeded =>
    have hfull : t.sizing.threshold < t.len + 1 := of_decide_eq_true hexceeded
    split
    · next hnone => exact ⟨hfilled, hperm, rfl, Or.inr ⟨rfl, rfl, hfull, hnone⟩⟩
    · next sizing hgrown =>
      obtain ⟨hvalid, -, -, hlen⟩ := h.sizing.of_grownFor? hgrown
      have hroom := Nat.lt_of_le_of_lt hlen hvalid.threshold_lt_capacity
      obtain ⟨hwell, hmoved⟩ := hfilled.rehash hE hvalid hroom i
      refine ⟨hwell, hmoved.trans hperm, rfl, Or.inl ⟨_, rfl, ?_, hlen⟩⟩
      exact hE.entryAt?_rehash (hfilled.len_eq ▸ hroom) hnew
  · next hroom =>
    have hlen : t.len + 1 ≤ t.sizing.threshold :=
      Nat.le_of_not_lt fun hlt => hroom (decide_eq_true hlt)
    exact ⟨hfilled, hperm, rfl, Or.inl ⟨i, rfl, hnew, hlen⟩⟩

/-! ### Clearing -/

omit [EquivBEq κ] in
/-- Clearing leaves no entries, if a blank slot has none. -/
theorem WellFormed.clearWith (h : t.WellFormed E hash) (blank : σ → σ)
    (hblank : ∀ s, E.entryIn? (blank s) = none) :
    (t.clearWith blank).Sound E hash ∧ (t.clearWith blank).entries E = [] := by
  have hempty : (t.clearWith blank).entries E = [] ∧ (t.clearWith blank).len = 0 ∧
      (t.clearWith blank).sizing = t.sizing ∧ (t.clearWith blank).slots.size = t.slots.size := by
    unfold Table.clearWith
    split
    · -- an empty table is left as it is, whatever its vacant slots hold
      next hlen =>
      have hzero : t.len = 0 := by simpa [isEmpty] using hlen
      have := h.len_eq
      exact ⟨List.eq_nil_of_length_eq_zero (by omega), hzero, rfl, rfl⟩
    · refine ⟨?_, rfl, rfl, Array.size_map⟩
      simp [Table.entries, hblank]
  obtain ⟨hentries, hlen, hsizing, hsize⟩ := hempty
  refine ⟨⟨⟨hsizing ▸ h.sizing, ?_, E.arranged_of_entries_nil hentries, ?_⟩, ?_⟩, hentries⟩
  · rw [hsize, hsizing, h.size_eq]
  · rw [hentries, hlen]; rfl
  · rw [hlen]; exact Nat.zero_le _

end LinearProbing.Table
