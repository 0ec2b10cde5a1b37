import LinearProbing.Proofs.Leftover.Table

/-!
# LinearProbing.Proofs.Restoring.Table

**Putting in an absent key and taking it out again restores a table.** The new entry fills the vacant slot
that ends a run, and so may join this run to the next one. When it goes, the walk that closes its gap goes on
through what was the next run; but it moves nothing there, as no occupant behind a vacant slot was reached
across it (`Layout.Chained.closeGapFrom_eq`). So the table is the old one again, but for what is left in
vacant slots (`Layout.Chained.like_erase`).

`Table.UpToKey` is what holds meanwhile: the table is the old one, or the old one with an entry under the one
key in the one slot (`Table.RoomFor`). All that can be done to this entry keeps it, and finds nothing else to
change.
-/

namespace LinearProbing

/-! ### Arrays -/

namespace Layout

variable {σ : Type} {L : Layout σ} {slots slots' : Array σ} {accepts : σ → Bool} {s : σ}
variable {gap index place i steps : Nat}

/-- From a slot that was vacant in a chained array, nothing is moved: it is on nobody's way. -/
theorem Chained.closeGapFrom_eq (hc : L.Chained slots) (hgap : gap < slots.size)
    (hvac : L.vacantAt slots gap = true) (steps : Nat) (hindex : index < slots.size) :
    L.closeGapFrom steps gap index slots = slots := by
  induction steps generalizing index with
  | zero => rfl
  | succ steps ih =>
      rw [closeGapFrom]
      split
      · rfl
      · next hocc =>
        rw [Bool.not_eq_true] at hocc
        -- in a table that is chained without the gap, no entry has its home on the far side of it
        have hstays : ¬ canFillGap (L.home slots.size (L.slotAt slots index)) gap index = true := by
          rw [canFillGap_iff (home_lt (Nat.zero_lt_of_lt hindex)) hgap hindex]
          exact fun hway => absurd ((hc index hindex hocc gap hgap hway).symm.trans hvac) (by decide)
        rw [if_neg hstays]
        exact ih (nextSlot_lt hindex)

/-- **What has filled a vacant slot of a chained array can be taken out again**, and every occupant is where
it was. -/
theorem Chained.like_erase (hL : L.Lawful) (hc : L.Chained slots) (hplace : place < slots.size)
    (hvac : L.vacantAt slots place = true) (h : L.Like (slots.setIfInBounds place s) slots') :
    L.Like slots (L.closeGap (L.vacate slots' place) place) := by
  have hemptied : L.Like slots (L.vacate slots' place) := by
    refine ⟨?_, fun j => ?_⟩
    · rw [size_vacate, ← h.size_eq, Array.size_setIfInBounds]
    · by_cases hj : place = j
      · subst hj
        exact .of_vacant hvac hL.vacantAt_vacate_self
      · have hagree := h.agree j
        rw [slotAt_setIfInBounds_ne hj] at hagree
        rwa [slotAt_vacate_ne hj]
  have hunmoved : L.closeGap slots place = slots := hc.closeGapFrom_eq hplace hvac _ (nextSlot_lt hplace)
  have hclosed := hemptied.closeGap hL place
  rwa [hunmoved] at hclosed

/-- A search that ended at a vacant slot ends at what is put there, if it accepts it. -/
theorem probeFrom_fill (hindex : index < slots.size)
    (h : L.probeFrom slots accepts steps index = .vacant place) (hs : L.vacant s = false)
    (haccepts : accepts s = true) :
    L.probeFrom (slots.setIfInBounds place s) accepts steps index = .found place := by
  induction steps generalizing index with
  | zero => cases h
  | succ steps ih =>
      rw [probeFrom] at h ⊢
      split at h
      · cases h
        rw [vacantAt_setIfInBounds_self hindex, slotAt_setIfInBounds_self hindex, hs, haccepts]
        rfl
      · next hocc =>
        split at h
        · cases h
        · next hpassed =>
          -- the slot that is filled is vacant, hence not one that the search has passed
          have hne : place ≠ index := by
            rintro rfl
            exact hocc (vacantAt_of_probeFrom_vacant (nextSlot_lt hindex) h).2
          rw [vacantAt_setIfInBounds_ne hne, slotAt_setIfInBounds_ne hne, if_neg hocc, if_neg hpassed,
            Array.size_setIfInBounds]
          exact ih (nextSlot_lt hindex) h

/-- What a search has found is accepted. -/
theorem accepts_of_probeFrom_found (h : L.probeFrom slots accepts steps index = .found i) :
    accepts (L.slotAt slots i) = true := by
  induction steps generalizing index with
  | zero => cases h
  | succ steps ih =>
      rw [probeFrom] at h
      split at h
      · cases h
      · split at h
        · next haccepts =>
          cases h
          exact haccepts
        · exact ih h

end Layout

/-! ### Tables -/

namespace Table

open EntryLayout (Lawful)

variable {σ κ ν : Type} [BEq κ]
variable {E : EntryLayout σ κ ν} {hash : κ → UInt64} {storable : κ → ν → Prop} {within : Prop}
variable {t u v : Table σ} {key k : κ} {value : ν} {e : κ × ν} {place i : Nat}

/-- There may be one entry more before the table has to grow. -/
def HasRoom (t : Table σ) : Prop := t.sizing.exceededBy (t.len + 1) = false

instance : Decidable t.HasRoom := inferInstanceAs (Decidable (_ = _))

omit [BEq κ] in
theorem HasRoom.state_insertAt (h : t.HasRoom) (slot : σ) :
    (t.insertAt E i slot).state = t.withEntry i slot := by
  unfold Table.insertAt
  dsimp only
  rw [show (t.setAt i slot).sizing.exceededBy (t.len + 1) = false from h]
  rfl

/-- A key is absent from a table, and there is room for it at `place`. -/
structure RoomFor (E : EntryLayout σ κ ν) (hash : κ → UInt64) (storable : κ → ν → Prop) (t : Table σ)
    (key : κ) (place : Nat) : Prop where
  /-- The search for the key ends at this slot. -/
  located : t.locate E (hash key) key = .vacant place
  absent : ∀ {i e}, t.entryAt? E i = some e → (e.1 == key) = false
  chained : E.layout.Chained t.slots
  /-- An entry under the key, if there is one that can be stored, does not make the table grow. -/
  room : ∀ {k value}, (k == key) = true → storable k value → t.HasRoom

/-- A table is `t`, or `t` with an entry under the key, but for what is left in vacant slots. -/
inductive UpToKey (E : EntryLayout σ κ ν) (hash : κ → UInt64) (storable : κ → ν → Prop) (t : Table σ)
    (key : κ) (place : Nat) (u : Table σ) : Prop
  | absent (like : t.Like E False u)
  | present {k : κ} {value : ν} (same : (k == key) = true) (stored : storable k value)
      (like : (t.withEntry place (E.occupy (hash k) k value)).Like E False u)

theorem UpToKey.refl : UpToKey E hash storable t key place t := .absent (.refl False.elim)

theorem UpToKey.congr (h : UpToKey E hash storable t key place u) (hsizing : v.sizing = u.sizing)
    (hslots : v.slots = u.slots) (hlen : v.len = u.len) : UpToKey E hash storable t key place v := by
  cases h with
  | absent like => exact .absent (like.congr rfl rfl rfl hsizing hslots hlen)
  | present same stored like => exact .present same stored (like.congr rfl rfl rfl hsizing hslots hlen)

omit [BEq κ] in
theorem entryAt?_withEntry_ne (hne : place ≠ i) (slot : σ) :
    (t.withEntry place slot).entryAt? E i = t.entryAt? E i :=
  congrArg E.entryIn? (Layout.slotAt_setIfInBounds_ne hne)

/-- Equal keys are searched for alike. -/
theorem locate_congr [EquivBEq κ] (hE : E.Lawful hash storable) (hkey : (k == key) = true) :
    t.locate E (hash k) k = t.locate E (hash key) key := by
  have hholds : E.holds (hash k) k = E.holds (hash key) key := by
    funext s
    rw [EntryLayout.holds, EntryLayout.holds, hE.hash_congr k key hkey]
    cases E.entryIn? s with
    | none => rfl
    | some e => exact congrArg (E.hash s == hash key && ·) (BEq.congr_right hkey)
  rw [locate, locate, hholds, hE.hash_congr k key hkey]

theorem find?_of_endless {h : UInt64} (hlocate : u.locate E h k = .endless) : u.find? E h k = none := by
  rw [find?, hlocate]

/-- A search finds an entry under an equal key. -/
theorem exists_entryAt?_of_find? [EquivBEq κ] {h : UInt64} (hfind : u.find? E h k = some i)
    (hkey : (k == key) = true) :
    ∃ e, u.entryAt? E i = some e ∧ (e.1 == key) = true := by
  have hholds : E.holds h k (E.layout.slotAt u.slots i) = true :=
    Layout.accepts_of_probeFrom_found (locate_of_find? hfind)
  rw [EntryLayout.holds] at hholds
  split at hholds
  · next _ k' v' hentry => exact ⟨(k', v'), hentry, BEq.trans (Bool.and_eq_true_iff.mp hholds).2 hkey⟩
  · cases hholds

/-- There is room for an absent key, unless the table is to grow for it. -/
theorem WellFormed.exists_roomFor (h : t.WellFormed E hash) (hE : E.Lawful hash storable)
    (hlt : t.len < t.slots.size) (habsent : t.find? E (hash key) key = none)
    (hroom : ∀ {k value}, (k == key) = true → storable k value → t.HasRoom) :
    ∃ place, t.RoomFor E hash storable key place := by
  have hlocated := h.located hE hlt key
  generalize hlocate : t.locate E (hash key) key = outcome at hlocated
  cases hlocated with
  | found => exact absurd ((find?_of_found hlocate).symm.trans habsent) nofun
  | @vacant place searched absent =>
      refine ⟨place, hlocate, fun {i e} he => ?_, h.arranged.chained, hroom⟩
      exact absent e (EntryLayout.mem_entries_iff.mpr ⟨i, hE.lt_size he, he⟩)

section UpToKey

variable (hE : E.Lawful hash storable) (room : t.RoomFor E hash storable key place)
include room

/-- The only entry under the key is the one in the one slot. -/
theorem UpToKey.eq_place (h : UpToKey E hash storable t key place u) (he : u.entryAt? E i = some e)
    (hkey : (e.1 == key) = true) :
    i = place ∧ ∃ k value, storable k value ∧
      (t.withEntry place (E.occupy (hash k) k value)).Like E False u := by
  cases h with
  | absent like =>
      rw [← like.entryAt?_eq] at he
      exact absurd ((room.absent he).symm.trans hkey) (by decide)
  | @present k value same stored like =>
      refine ⟨?_, k, value, stored, like⟩
      by_contra hne
      rw [← like.entryAt?_eq, entryAt?_withEntry_ne (Ne.symm hne)] at he
      exact absurd ((room.absent he).symm.trans hkey) (by decide)

include hE

/-- With the entry, the search for the key ends at it. -/
theorem RoomFor.locate_withEntry (hk : (k == key) = true) (hs : storable k value) :
    (t.withEntry place (E.occupy (hash k) k value)).locate E (hash key) key = .found place := by
  have hentry := hE.entryIn?_occupy k value hs
  have hplace := vacantAt_of_locate_vacant room.located
  have hholds : E.holds (hash key) key (E.occupy (hash k) k value) = true := by
    rw [EntryLayout.holds, hentry, hE.hash_occupy k value hs, hE.hash_congr k key hk]
    simpa using hk
  have hlocated := room.located
  rw [locate, Layout.probe] at hlocated ⊢
  rw [show (t.withEntry place (E.occupy (hash k) k value)).slots.size = t.slots.size from
    Array.size_setIfInBounds]
  exact Layout.probeFrom_fill (homeSlot_lt (Nat.zero_lt_of_lt hplace.1)) hlocated
    (EntryLayout.vacant_eq_false hentry) hholds

/-- The entry is kept with the hash of its key. -/
theorem UpToKey.hash_eq (h : UpToKey E hash storable t key place u) (he : u.entryAt? E i = some e)
    (hkey : (e.1 == key) = true) : E.hash (E.layout.slotAt u.slots i) = hash e.1 := by
  obtain ⟨rfl, k, value, stored, like⟩ := h.eq_place room he hkey
  have hocc : E.layout.vacantAt (t.withEntry i (E.occupy (hash k) k value)).slots i = false := by
    rw [like.slots.vacantAt_eq]
    exact EntryLayout.vacantAt_of_entryAt? he
  have hslot : E.layout.slotAt u.slots i = E.occupy (hash k) k value := by
    rw [← like.slotAt_eq hocc]
    exact Layout.slotAt_setIfInBounds_self (vacantAt_of_locate_vacant room.located).1
  rw [entryAt?, hslot, hE.entryIn?_occupy k value stored] at he
  cases he
  rw [hslot, hE.hash_occupy k value stored]

/-- Where the key is not found, the table is the old one. -/
theorem UpToKey.like_of_find? [EquivBEq κ] (h : UpToKey E hash storable t key place u)
    (hk : (k == key) = true) (hfind : u.find? E (hash k) k = none) : t.Like E False u := by
  cases h with
  | absent like => exact like
  | present same stored like =>
      have hlocate := room.locate_withEntry hE same stored
      rw [like.locate_eq, ← locate_congr hE hk] at hlocate
      exact absurd ((find?_of_found hlocate).symm.trans hfind) nofun

/-- **Taking out the entry restores the table.** -/
theorem UpToKey.eraseAt (h : UpToKey E hash storable t key place u) (he : u.entryAt? E i = some e)
    (hkey : (e.1 == key) = true) : t.Like E False (u.eraseAt E i) := by
  obtain ⟨rfl, k, value, -, like⟩ := h.eq_place room he hkey
  have hplace := vacantAt_of_locate_vacant room.located
  refine ⟨like.sizing_eq, ?_, room.chained.like_erase hE.layout hplace.1 hplace.2 like.slots, False.elim⟩
  show t.len = u.len - 1
  rw [← like.len_eq]
  rfl

omit hE in
/-- The entry may be overwritten. -/
theorem UpToKey.setAt (h : UpToKey E hash storable t key place u) (he : u.entryAt? E i = some e)
    (hkey : (e.1 == key) = true) (hk : (k == key) = true) (hs : storable k value) :
    UpToKey E hash storable t key place (u.setAt i (E.occupy (hash k) k value)) := by
  obtain ⟨rfl, k', value', -, like⟩ := h.eq_place room he hkey
  have hset := like.slots.setIfInBounds i (.refl (E.occupy (hash k) k value))
  rw [show (t.withEntry i (E.occupy (hash k') k' value')).slots.setIfInBounds i
      (E.occupy (hash k) k value) = (t.withEntry i (E.occupy (hash k) k value)).slots from
    Array.setIfInBounds_setIfInBounds ..] at hset
  exact .present hk hs ⟨like.sizing_eq, like.len_eq, hset, False.elim⟩

/-- The entry may be put in. -/
theorem UpToKey.insertAt [EquivBEq κ] (h : UpToKey E hash storable t key place u) (hk : (k == key) = true)
    (hs : storable k value) (hlocate : u.locate E (hash k) k = .vacant i) :
    UpToKey E hash storable t key place (u.insertAt E i (E.occupy (hash k) k value)).state := by
  have like := h.like_of_find? hE room hk (find?_of_vacant hlocate)
  obtain rfl : place = i := by
    have hlocated := room.located
    rw [like.locate_eq, ← locate_congr hE hk, hlocate] at hlocated
    exact (Probe.vacant.inj hlocated).symm
  have hroom : u.HasRoom := by
    rw [HasRoom, ← like.sizing_eq, ← like.len_eq]
    exact room.room hk hs
  rw [hroom.state_insertAt]
  exact .present hk hs
    ⟨like.sizing_eq, congrArg (· + 1) like.len_eq, like.slots.setIfInBounds place (.refl _), False.elim⟩

/-- A sweep may take out the entry, if it selects nothing else. -/
theorem UpToKey.sweep (h : UpToKey E hash storable t key place u) {selects : κ → ν → Reply Bool}
    (hselects : ∀ k value, selects k value = .answers true → (k == key) = true) (steps : Nat)
    (scan : Scan) (removed : Bool) :
    UpToKey E hash storable t key place (u.sweep E selects steps scan removed).state := by
  induction steps generalizing u scan removed with
  | zero => exact h
  | succ steps ih =>
      rw [Table.sweep]
      cases scan.advance E.layout u.slots with
      | mk index? scan =>
          cases index? with
          | none => exact h
          | some index =>
              dsimp only
              cases hentry : u.entryAt? E index with
              | none => exact h
              | some e =>
                  obtain ⟨k, value⟩ := e
                  dsimp only
                  cases hreply : selects k value with
                  | panics => exact h
                  | answers selected =>
                      cases selected with
                      | false => exact ih h scan removed
                      -- only the one key is selected, and removing it leads back to the old table
                      | true =>
                          exact ih (.absent (h.eraseAt hE room hentry (hselects k value hreply))) scan true

end UpToKey

/-! ### Cursors -/

namespace Cursor

variable {c : Cursor σ}

/-- A cursor over such a table; the entry produced last is in its slot. -/
structure UpToKey (E : EntryLayout σ κ ν) (hash : κ → UInt64) (storable : κ → ν → Prop) (t : Table σ)
    (key : κ) (place : Nat) (c : Cursor σ) : Prop where
  table : Table.UpToKey E hash storable t key place c.table
  current : ∀ i, c.scan.current = some i → E.layout.vacantAt c.table.slots i = false

theorem UpToKey.like (h : UpToKey E hash storable t key place c) : c.Like E False c :=
  ⟨rfl, .refl False.elim, h.current⟩

theorem upToKey_openCursor (h : Table.UpToKey E hash storable t key place u) :
    UpToKey E hash storable t key place (u.openCursor E) := by
  have hopened : (u.openCursor E).Like E False (u.openCursor E) := Table.Like.openCursor (.refl False.elim)
  refine ⟨?_, hopened.current⟩
  unfold Table.openCursor
  dsimp only
  split
  · exact h.congr rfl rfl rfl
  · exact h

theorem UpToKey.next (h : UpToKey E hash storable t key place c) :
    UpToKey E hash storable t key place (c.next E).2 := by
  obtain ⟨hsizing, hslots, hlen⟩ := setScan_fields c (c.scan.advance E.layout c.table.slots).2
  exact ⟨h.table.congr hsizing hslots hlen, h.like.next.2.current⟩

omit [BEq κ] in
/-- What is removed has been in a slot. -/
theorem exists_entryAt?_of_remove (hremoved : (c.remove E).1 = some e) :
    ∃ i, c.table.entryAt? E i = some e := by
  unfold Cursor.remove Scan.takeCurrent at hremoved
  dsimp only at hremoved
  split at hremoved
  · cases hremoved
  · next i _ =>
    rw [entryAt?_eq, (setScan_fields c _).2.1] at hremoved
    exact ⟨i, hremoved⟩

/-- The entry produced last, if it is not gone. -/
theorem UpToKey.exists_remove (h : UpToKey E hash storable t key place c)
    (hcurrent : c.scan.current = some i) :
    ∃ e, c.table.entryAt? E i = some e ∧ (c.remove E).1 = some e := by
  obtain ⟨e, he⟩ := EntryLayout.vacantAt_eq_false_iff.mp (h.current i hcurrent)
  refine ⟨e, he, ?_⟩
  unfold Cursor.remove Scan.takeCurrent
  dsimp only
  rw [hcurrent]
  dsimp only
  rw [entryAt?_eq, (setScan_fields c _).2.1]
  exact he

/-- A cursor may remove the entry, and nothing else. -/
theorem UpToKey.remove (hE : E.Lawful hash storable) (room : t.RoomFor E hash storable key place)
    (h : UpToKey E hash storable t key place c) (hconfined : ∀ e ∈ (c.remove E).1, (e.1 == key) = true) :
    UpToKey E hash storable t key place (c.remove E).2 ∧
      ((c.remove E).1.isSome → t.Like E False (c.remove E).2.table) := by
  have hcurrent := (h.like.remove hE.layout).2.current
  obtain ⟨hsizing, hslots, hlen⟩ := setScan_fields c { c.scan with current := none }
  have hset := h.table.congr hsizing hslots hlen
  -- nothing is removed without a current entry, and the current entry is that of the key
  cases hscan : c.scan.current with
  | none =>
      have hremove : c.remove E = (none, c.setScan { c.scan with current := none }) := by
        unfold Cursor.remove Scan.takeCurrent
        dsimp only
        rw [hscan]
      rw [hremove] at hcurrent ⊢
      exact ⟨⟨hset, hcurrent⟩, nofun⟩
  | some i =>
      obtain ⟨e, he, hremoved⟩ := h.exists_remove hscan
      have htable : (c.remove E).2.table = (c.setScan { c.scan with current := none }).table.eraseAt E i := by
        unfold Cursor.remove Scan.takeCurrent
        dsimp only
        rw [hscan]
      have hrestored : t.Like E False (c.remove E).2.table := by
        rw [htable]
        refine hset.eraseAt hE room ?_ (hconfined e hremoved)
        rw [entryAt?_eq, hslots]
        exact he
      exact ⟨⟨.absent hrestored, hcurrent⟩, fun _ => hrestored⟩

end Cursor

end Table

end LinearProbing
