import LinearProbing.Scan
import LinearProbing.Proofs.Slots.Rehash
import Mathlib.Data.List.Forall2

/-!
# LinearProbing.Proofs.Leftover.Slots

**What is left in vacant slots does not show.** When an occupant goes, its key may stay behind in the slot.
Two arrays that are the same but for what is left in vacant slots (`Layout.Like`) are searched, changed and
scanned alike: every walk asks whether a slot is vacant before it looks into it. An occupant is the same in
both, so that it is accepted, moved and put into a new array alike.
-/

namespace LinearProbing.Layout

variable {σ : Type} {L : Layout σ} {slots slots' : Array σ} {s s' : σ} {i j : Nat}

/-- Two slots are the same, or both are vacant. -/
def Agree (L : Layout σ) (s s' : σ) : Prop := s = s' ∨ (L.vacant s = true ∧ L.vacant s' = true)

/-- Two arrays are the same but for what is left in vacant slots. -/
structure Like (L : Layout σ) (slots slots' : Array σ) : Prop where
  size_eq : slots.size = slots'.size
  agree : ∀ i, L.Agree (L.slotAt slots i) (L.slotAt slots' i)

theorem Agree.refl (s : σ) : L.Agree s s := Or.inl rfl

/-- Vacant slots agree, whatever is left over in them. -/
theorem Agree.of_vacant (h : L.vacant s = true) (h' : L.vacant s' = true) : L.Agree s s' := Or.inr ⟨h, h'⟩

/-- Slots that agree are both vacant or both occupied. -/
theorem Agree.vacant_eq (h : L.Agree s s') : L.vacant s = L.vacant s' := by
  rcases h with rfl | ⟨h, h'⟩
  · rfl
  · rw [h, h']

/-- Occupants are the same. -/
theorem Agree.eq (h : L.Agree s s') (hocc : L.vacant s = false) : s = s' := by
  rcases h with rfl | ⟨h, -⟩
  · rfl
  · exact absurd (hocc.symm.trans h) (by decide)

instance [DecidableEq σ] : Decidable (L.Agree s s') := inferInstanceAs (Decidable (_ ∨ _))

/-- Only the slots that there are have to be compared. -/
theorem Like.of_lt (hsize : slots.size = slots'.size)
    (h : ∀ i < slots.size, L.Agree (L.slotAt slots i) (L.slotAt slots' i)) : L.Like slots slots' := by
  refine ⟨hsize, fun i => ?_⟩
  by_cases hi : i < slots.size
  · exact h i hi
  · rw [slotAt_of_size_le (Nat.le_of_not_lt hi), slotAt_of_size_le (hsize ▸ Nat.le_of_not_lt hi)]
    exact .refl _

theorem Like.refl (slots : Array σ) : L.Like slots slots := ⟨rfl, fun _ => .refl _⟩

/-! ### Reading -/

/-- The same slots are vacant. -/
theorem Like.vacantAt_eq (h : L.Like slots slots') (i : Nat) :
    L.vacantAt slots i = L.vacantAt slots' i :=
  (h.agree i).vacant_eq

/-- Occupied slots are the same. -/
theorem Like.slotAt_eq (h : L.Like slots slots') (hocc : L.vacantAt slots i = false) :
    L.slotAt slots i = L.slotAt slots' i :=
  (h.agree i).eq hocc

theorem Like.forall₂ (h : L.Like slots slots') : List.Forall₂ L.Agree slots.toList slots'.toList := by
  refine List.forall₂_iff_get.mpr ⟨h.size_eq, fun i hi hi' => ?_⟩
  have hagree := h.agree i
  rw [slotAt_eq_getElem hi, slotAt_eq_getElem hi'] at hagree
  exact hagree

/-- The occupants are the same, in the same order. -/
theorem Like.occupants_eq (h : L.Like slots slots') : L.occupants slots = L.occupants slots' := by
  have hlists := h.forall₂
  rw [occupants, occupants]
  generalize slots.toList = l, slots'.toList = l' at hlists
  induction hlists with
  | nil => rfl
  | @cons s s' _ _ hagree _ ih =>
      rw [List.filter_cons, List.filter_cons, ← hagree.vacant_eq, ih]
      split
      · next hocc => rw [hagree.eq (by simpa using hocc)]
      · rfl

/-! ### Searching -/

/-- A search looks into occupied slots only, and stops at vacant ones. -/
theorem Like.probeFrom_eq (h : L.Like slots slots') (accepts : σ → Bool) (steps index : Nat) :
    L.probeFrom slots accepts steps index = L.probeFrom slots' accepts steps index := by
  induction steps generalizing index with
  | zero => rfl
  | succ steps ih =>
      rw [probeFrom, probeFrom, ← h.vacantAt_eq index]
      split
      · rfl
      · next hocc => rw [← h.slotAt_eq (by simpa using hocc), ← h.size_eq, ih]

theorem Like.probe_eq (h : L.Like slots slots') (accepts : σ → Bool) (home : Nat) :
    L.probe slots accepts home = L.probe slots' accepts home := by
  rw [probe, probe, h.probeFrom_eq, h.size_eq]

/-- A search that finds something has found an occupant. -/
theorem vacantAt_of_probeFrom_found {accepts : σ → Bool} {steps index : Nat}
    (h : L.probeFrom slots accepts steps index = .found i) : L.vacantAt slots i = false := by
  induction steps generalizing index with
  | zero => cases h
  | succ steps ih =>
      rw [probeFrom] at h
      split at h
      · cases h
      · next hocc =>
        split at h
        · cases h
          simpa using hocc
        · exact ih h

/-- A search that ends at a vacant slot has ended within the array. -/
theorem vacantAt_of_probeFrom_vacant {accepts : σ → Bool} {steps index : Nat}
    (hindex : index < slots.size) (h : L.probeFrom slots accepts steps index = .vacant i) :
    i < slots.size ∧ L.vacantAt slots i = true := by
  induction steps generalizing index with
  | zero => cases h
  | succ steps ih =>
      rw [probeFrom] at h
      split at h
      · next hvac =>
        cases h
        exact ⟨hindex, hvac⟩
      · split at h
        · cases h
        · exact ih (nextSlot_lt hindex) h

/-! ### Changing -/

/-- Writing slots that agree leaves the arrays alike. -/
theorem Like.setIfInBounds (h : L.Like slots slots') (i : Nat) (hs : L.Agree s s') :
    L.Like (slots.setIfInBounds i s) (slots'.setIfInBounds i s') := by
  refine ⟨by rw [Array.size_setIfInBounds, Array.size_setIfInBounds, h.size_eq], fun j => ?_⟩
  by_cases hij : i = j
  · subst hij
    by_cases hi : i < slots.size
    · rwa [slotAt_setIfInBounds_self hi, slotAt_setIfInBounds_self (h.size_eq ▸ hi)]
    · rw [slotAt_of_size_le (by simpa using hi), slotAt_of_size_le (by simpa [← h.size_eq] using hi)]
      exact .refl _
  · rw [slotAt_setIfInBounds_ne hij, slotAt_setIfInBounds_ne hij]
    exact h.agree j

theorem Like.vacate (hL : L.Lawful) (h : L.Like slots slots') (i : Nat) :
    L.Like (L.vacate slots i) (L.vacate slots' i) :=
  h.setIfInBounds i (.of_vacant (hL.vacant_leave _) (hL.vacant_leave _))

/-- Moving an occupant leaves what was there in its old slot, which is vacant then. -/
theorem Like.shift (hL : L.Lawful) (h : L.Like slots slots') (i j : Nat) :
    L.Like (L.shift slots i j) (L.shift slots' i j) :=
  (h.setIfInBounds j (h.agree i)).vacate hL i

/-- Of an occupant that is passed, both walks see the home. -/
theorem Like.closeGapFrom (hL : L.Lawful) (h : L.Like slots slots') (steps gap index : Nat) :
    L.Like (L.closeGapFrom steps gap index slots) (L.closeGapFrom steps gap index slots') := by
  induction steps generalizing gap index slots slots' with
  | zero => exact h
  | succ steps ih =>
      rw [Layout.closeGapFrom, Layout.closeGapFrom, ← h.vacantAt_eq index]
      split
      · exact h
      · next hocc =>
        rw [← h.slotAt_eq (by simpa using hocc), ← h.size_eq]
        split
        · exact ih (h.shift hL index gap) _ _
        · exact ih h _ _

/-- The same occupants are moved into the gap. -/
theorem Like.closeGap (hL : L.Lawful) (h : L.Like slots slots') (gap : Nat) :
    L.Like (L.closeGap slots gap) (L.closeGap slots' gap) := by
  rw [Layout.closeGap, Layout.closeGap, ← h.size_eq]
  exact h.closeGapFrom hL _ _ _

/-- Only occupants are put into a new array. -/
theorem refill_eq {l l' : List σ} (h : List.Forall₂ L.Agree l l') (tracked index : Nat)
    (moved : Array σ × Nat) : L.refill tracked index l moved = L.refill tracked index l' moved := by
  induction h generalizing index moved with
  | nil => rfl
  | @cons s s' _ _ hagree _ ih =>
      obtain ⟨slots, seen⟩ := moved
      rw [refill, refill, ← hagree.vacant_eq]
      split
      · exact ih _ _
      · next hocc =>
        rw [← hagree.eq (by simpa using hocc)]
        split
        · exact ih _ _
        · exact ih _ _

/-- Moving to another number of slots starts with fresh slots, so nothing is left over. -/
theorem Like.rehash_eq (h : L.Like slots slots') (capacity tracked : Nat) :
    L.rehash slots capacity tracked = L.rehash slots' capacity tracked :=
  refill_eq h.forall₂ tracked 0 _

/-- Slots that are all made vacant are vacant, also those beyond the end. -/
theorem vacantAt_map (hL : L.Lawful) {blank : σ → σ} (hblank : ∀ s, L.vacant (blank s) = true)
    (slots : Array σ) (i : Nat) : L.vacantAt (slots.map blank) i = true := by
  by_cases hi : i < slots.size
  · rw [vacantAt, slotAt_eq_getElem (by simpa using hi), Array.getElem_map, hblank]
  · rw [vacantAt, slotAt_of_size_le (by simpa using hi), hL.vacant_empty]

/-- Arrays without occupants. -/
theorem Like.of_vacant (hsize : slots.size = slots'.size) (h : ∀ i, L.vacantAt slots i = true)
    (h' : ∀ i, L.vacantAt slots' i = true) : L.Like slots slots' :=
  ⟨hsize, fun i => .of_vacant (h i) (h' i)⟩

/-- Arrays in which all slots are made vacant are alike. -/
theorem Like.blanked (hL : L.Lawful) (h : L.Like slots slots') {blank : σ → σ}
    (hblank : ∀ s, L.vacant (blank s) = true) : L.Like (slots.map blank) (slots'.map blank) :=
  .of_vacant (by rw [Array.size_map, Array.size_map, h.size_eq]) (vacantAt_map hL hblank slots)
    (vacantAt_map hL hblank slots')

/-- Where all slots are vacant there are no occupants. -/
theorem occupants_of_vacant (h : ∀ i, L.vacantAt slots i = true) : L.occupants slots = [] := by
  refine List.eq_nil_iff_forall_not_mem.mpr fun s hs => ?_
  obtain ⟨i, -, hocc, -⟩ := mem_occupants_iff.mp hs
  exact absurd (hocc.symm.trans (h i)) (by decide)

theorem vacantAt_of_occupants_eq_nil (hL : L.Lawful) (h : L.occupants slots = []) (i : Nat) :
    L.vacantAt slots i = true := by
  by_contra hocc
  rw [Bool.not_eq_true] at hocc
  have hmem : L.slotAt slots i ∈ L.occupants slots :=
    mem_occupants_iff.mpr ⟨i, hL.lt_size hocc, hocc, rfl⟩
  rw [h] at hmem
  exact absurd hmem List.not_mem_nil

/-! ### Scanning -/

/-- A scan starts below the same vacant slot. -/
theorem Like.origin_eq (h : L.Like slots slots') : Scan.origin L slots = Scan.origin L slots' := by
  have hfind : slots.findIdx? L.vacant = slots'.findIdx? L.vacant := by
    have hlists := h.forall₂
    have hlist : ∀ a : Array σ, a.findIdx? L.vacant = a.toList.findIdx? L.vacant :=
      fun ⟨_⟩ => List.findIdx?_toArray ..
    rw [hlist, hlist]
    generalize slots.toList = l, slots'.toList = l' at hlists
    induction hlists with
    | nil => rfl
    | cons hagree _ ih => rw [List.findIdx?_cons, List.findIdx?_cons, ← hagree.vacant_eq, ih]
  rw [Scan.origin, Scan.origin, ← h.vacantAt_eq, ← h.size_eq, hfind]

theorem Like.begin_eq (h : L.Like slots slots') (len : Nat) :
    Scan.begin L slots len = Scan.begin L slots' len := by
  rw [Scan.begin, Scan.begin, h.origin_eq, h.size_eq]

/-- A scan finds the same occupied slot next. -/
theorem Like.search_eq (h : L.Like slots slots') (start ahead : Nat) :
    Scan.search L slots start ahead = Scan.search L slots' start ahead := by
  induction ahead with
  | zero => rfl
  | succ ahead ih => rw [Scan.search, Scan.search, ← h.vacantAt_eq, ← h.size_eq, ih]

theorem Like.advance_eq (h : L.Like slots slots') (scan : Scan) :
    scan.advance L slots = scan.advance L slots' := by
  rw [Scan.advance, Scan.advance, h.search_eq]

/-- A scan stops at occupants only. -/
theorem vacantAt_of_search {start ahead below : Nat}
    (h : Scan.search L slots start ahead = some (i, below)) : L.vacantAt slots i = false := by
  induction ahead with
  | zero => cases h
  | succ ahead ih =>
      rw [Scan.search] at h
      split at h
      · exact ih h
      · next hocc =>
        cases h
        simpa using hocc

/-- A scan stops at occupied slots only. -/
theorem vacantAt_of_advance {scan scan' : Scan} (h : scan.advance L slots = (some i, scan')) :
    L.vacantAt slots i = false ∧ scan'.current = some i := by
  rw [Scan.advance] at h
  split at h
  · cases h
  · split at h
    · next hsearch =>
      cases h
      exact ⟨vacantAt_of_search hsearch, rfl⟩
    · cases h

/-! ### Counting -/

/-- A walk that closes a gap moves occupants from slot to slot and loses none, wherever it ends. -/
theorem closeGapFrom_occupants (hL : L.Lawful) {steps gap index : Nat} (hgap : gap < slots.size)
    (hvac : L.vacantAt slots gap = true) (hindex : index < slots.size) :
    (L.closeGapFrom steps gap index slots).size = slots.size ∧
      (L.occupants (L.closeGapFrom steps gap index slots)).Perm (L.occupants slots) := by
  -- the gap moves along with the occupant that is moved; what is lost in one slot is in the other
  induction steps generalizing gap index slots with
  | zero => exact ⟨rfl, List.Perm.refl _⟩
  | succ steps ih =>
      rw [Layout.closeGapFrom]
      split
      · exact ⟨rfl, List.Perm.refl _⟩
      · next hocc =>
        rw [Bool.not_eq_true] at hocc
        split
        · have hmoved := hL.occupants_shift hocc hvac hgap
          obtain ⟨hsize, hperm⟩ := @ih (L.shift slots index gap) index (nextSlot slots.size index)
            (by rwa [size_shift]) hL.vacantAt_shift_source (by rw [size_shift]; exact nextSlot_lt hindex)
          exact ⟨hsize.trans size_shift, hperm.trans hmoved⟩
        · exact ih hgap hvac (nextSlot_lt hindex)

theorem closeGap_occupants (hL : L.Lawful) {gap : Nat} (hgap : gap < slots.size)
    (hvac : L.vacantAt slots gap = true) :
    (L.closeGap slots gap).size = slots.size ∧
      (L.occupants (L.closeGap slots gap)).Perm (L.occupants slots) :=
  closeGapFrom_occupants hL hgap hvac (nextSlot_lt hgap)

end LinearProbing.Layout
