import LinearProbing.Slots
import Mathlib.Tactic.ByContra

/-!
# LinearProbing.Proofs.Slots.Occupants

**Reading and writing slots.** What a slot holds after another one was written, and what a write does to
the list of occupants. Occupants are compared up to order (`List.Perm`): facts that do not mention
positions, such as the distinctness of keys, are then carried over by one permutation.
-/

namespace LinearProbing

/-- Replacing one member of a list, seen through a filter: the old member goes and the new one comes. -/
theorem filter_set_perm {σ : Type} (p : σ → Bool) (s : σ) (l : List σ) (i : Nat) (h : i < l.length) :
    ([l[i]].filter p ++ (l.set i s).filter p).Perm ([s].filter p ++ l.filter p) := by
  induction l generalizing i with
  | nil => exact absurd h (Nat.not_lt_zero _)
  | cons x rest ih =>
      -- the element that is replaced is the head, or lies in the rest and the head is kept or not
      cases i with
      | zero =>
          simp only [List.getElem_cons_zero, List.set_cons_zero]
          by_cases hx : p x <;> by_cases hs : p s <;> simp [hx, hs]
          exact List.Perm.swap ..
      | succ i =>
          have hrest := ih i (by simpa using h)
          simp only [List.getElem_cons_succ, List.set_cons_succ]
          by_cases hx : p x
          · rw [List.filter_cons_of_pos hx, List.filter_cons_of_pos hx]
            exact List.perm_middle.trans ((hrest.cons x).trans List.perm_middle.symm)
          · rwa [List.filter_cons_of_neg hx, List.filter_cons_of_neg hx]

namespace Layout

variable {σ : Type} {L : Layout σ} {slots : Array σ} {i j : Nat} {s : σ}

/-- A layout whose unused and abandoned slots are vacant. -/
structure Lawful (L : Layout σ) : Prop where
  vacant_empty : L.vacant L.empty = true
  vacant_leave : ∀ s, L.vacant (L.leave s) = true

/-! ### Reading -/

theorem slotAt_eq_getElem (h : i < slots.size) : L.slotAt slots i = slots[i] := by
  simp [slotAt, h]

theorem slotAt_of_size_le (h : slots.size ≤ i) : L.slotAt slots i = L.empty := by
  simp [slotAt, h]

theorem slotAt_setIfInBounds_self (h : i < slots.size) :
    L.slotAt (slots.setIfInBounds i s) i = s := by
  simp [slotAt, h]

theorem slotAt_setIfInBounds_ne (h : i ≠ j) :
    L.slotAt (slots.setIfInBounds i s) j = L.slotAt slots j := by
  simp [slotAt, Array.getD_eq_getD_getElem?, h]

theorem slotAt_replicate (n : Nat) : L.slotAt (Array.replicate n L.empty) i = L.empty := by
  by_cases h : i < n <;> simp [slotAt, h]

theorem vacantAt_setIfInBounds_self (h : i < slots.size) :
    L.vacantAt (slots.setIfInBounds i s) i = L.vacant s := by
  rw [vacantAt, slotAt_setIfInBounds_self h]

theorem vacantAt_setIfInBounds_ne (h : i ≠ j) :
    L.vacantAt (slots.setIfInBounds i s) j = L.vacantAt slots j := by
  rw [vacantAt, slotAt_setIfInBounds_ne h, vacantAt]

/-- Only slots of the array are occupied. -/
theorem Lawful.lt_size (hL : L.Lawful) (h : L.vacantAt slots i = false) : i < slots.size := by
  by_contra hi
  rw [vacantAt, slotAt_of_size_le (Nat.le_of_not_lt hi), hL.vacant_empty] at h
  exact absurd h (by decide)

theorem Lawful.vacantAt_replicate (hL : L.Lawful) (n : Nat) :
    L.vacantAt (Array.replicate n L.empty) i = true := by
  rw [vacantAt, slotAt_replicate, hL.vacant_empty]

/-! ### Vacating and moving -/

@[simp] theorem size_vacate : (L.vacate slots i).size = slots.size := by simp [vacate]

@[simp] theorem size_shift : (L.shift slots i j).size = slots.size := by simp [shift]

theorem Lawful.vacantAt_vacate_self (hL : L.Lawful) : L.vacantAt (L.vacate slots i) i = true := by
  by_cases h : i < slots.size
  · rw [vacate, vacantAt_setIfInBounds_self h, hL.vacant_leave]
  · rw [vacantAt, slotAt_of_size_le (by simpa using h), hL.vacant_empty]

theorem slotAt_vacate_ne (h : i ≠ j) : L.slotAt (L.vacate slots i) j = L.slotAt slots j :=
  slotAt_setIfInBounds_ne h

theorem vacantAt_vacate_ne (h : i ≠ j) : L.vacantAt (L.vacate slots i) j = L.vacantAt slots j :=
  vacantAt_setIfInBounds_ne h

/-- The target of a move holds what the source held. -/
theorem slotAt_shift_target (hj : j < slots.size) (h : i ≠ j) :
    L.slotAt (L.shift slots i j) j = L.slotAt slots i := by
  rw [shift, slotAt_vacate_ne h, slotAt_setIfInBounds_self hj]

theorem slotAt_shift_ne {k : Nat} (hi : i ≠ k) (hj : j ≠ k) :
    L.slotAt (L.shift slots i j) k = L.slotAt slots k := by
  rw [shift, slotAt_vacate_ne hi, slotAt_setIfInBounds_ne hj]

theorem Lawful.vacantAt_shift_source (hL : L.Lawful) : L.vacantAt (L.shift slots i j) i = true :=
  hL.vacantAt_vacate_self

/-! ### Occupants -/

theorem mem_occupants_iff :
    s ∈ L.occupants slots ↔ ∃ i < slots.size, L.vacantAt slots i = false ∧ L.slotAt slots i = s := by
  simp only [occupants, List.mem_filter, Array.mem_toList_iff, Array.mem_iff_getElem,
    Bool.not_eq_eq_eq_not, Bool.not_true]
  constructor
  · rintro ⟨⟨i, hi, rfl⟩, hs⟩
    exact ⟨i, hi, by rwa [vacantAt, slotAt_eq_getElem hi], slotAt_eq_getElem hi⟩
  · rintro ⟨i, hi, hv, rfl⟩
    exact ⟨⟨i, hi, (slotAt_eq_getElem hi).symm⟩, hv⟩

/-- With fewer occupants than slots, some slot is vacant. -/
theorem exists_vacantAt (h : (L.occupants slots).length < slots.size) :
    ∃ v < slots.size, L.vacantAt slots v = true := by
  by_contra hn
  simp only [not_exists, not_and, Bool.not_eq_true] at hn
  have hall : L.occupants slots = slots.toList := by
    refine List.filter_eq_self.mpr fun s hs => ?_
    obtain ⟨i, hi, rfl⟩ := Array.mem_iff_getElem.mp (Array.mem_toList_iff.mp hs)
    have := hn i hi
    rw [vacantAt, slotAt_eq_getElem hi] at this
    simp [this]
  rw [hall, Array.length_toList] at h
  exact Nat.lt_irrefl _ h

/-- With a vacant slot there are fewer occupants than slots. -/
theorem length_occupants_lt (h : ∃ v < slots.size, L.vacantAt slots v = true) :
    (L.occupants slots).length < slots.size := by
  obtain ⟨v, hv, hvac⟩ := h
  rw [vacantAt, slotAt_eq_getElem hv] at hvac
  rw [occupants, ← Array.length_toList]
  refine List.length_filter_lt_length_iff_exists.mpr ⟨slots[v], Array.getElem_mem_toList hv, ?_⟩
  simp [hvac]

theorem Lawful.occupants_replicate (hL : L.Lawful) (n : Nat) :
    L.occupants (Array.replicate n L.empty) = [] := by
  simp [occupants, hL.vacant_empty]

theorem occupants_setIfInBounds (hi : i < slots.size) :
    ([L.slotAt slots i].filter (! L.vacant ·) ++ L.occupants (slots.setIfInBounds i s)).Perm
      ([s].filter (! L.vacant ·) ++ L.occupants slots) := by
  have h := filter_set_perm (! L.vacant ·) s slots.toList i (by simpa using hi)
  rwa [Array.getElem_toList, ← slotAt_eq_getElem (L := L) hi, ← Array.toList_setIfInBounds] at h

/-- Filling a vacant slot adds one occupant. -/
theorem occupants_fill (hi : i < slots.size) (hv : L.vacantAt slots i = true)
    (hs : L.vacant s = false) :
    (L.occupants (slots.setIfInBounds i s)).Perm (s :: L.occupants slots) := by
  have h := occupants_setIfInBounds (L := L) (s := s) hi
  simpa [show L.vacant (L.slotAt slots i) = true from hv, hs] using h

/-- Vacating an occupied slot takes one occupant away. -/
theorem Lawful.occupants_vacate (hL : L.Lawful) (hv : L.vacantAt slots i = false) :
    (L.occupants slots).Perm (L.slotAt slots i :: L.occupants (L.vacate slots i)) := by
  have h := occupants_setIfInBounds (L := L) (s := L.leave (L.slotAt slots i)) (hL.lt_size hv)
  simpa [vacate, show L.vacant (L.slotAt slots i) = false from hv, hL.vacant_leave] using h.symm

/-- Overwriting an occupied slot exchanges one occupant. -/
theorem Lawful.occupants_replace (hL : L.Lawful) (hv : L.vacantAt slots i = false)
    (hs : L.vacant s = false) :
    (L.occupants (slots.setIfInBounds i s)).Perm (s :: L.occupants (L.vacate slots i)) := by
  have hi := hL.lt_size hv
  have hi' : i < (L.vacate slots i).size := by simpa using hi
  have h := occupants_fill hi' hL.vacantAt_vacate_self hs
  rwa [vacate, Array.setIfInBounds_setIfInBounds] at h

/-- A move into a vacant slot keeps the occupants. -/
theorem Lawful.occupants_shift (hL : L.Lawful) (hi : L.vacantAt slots i = false)
    (hj : L.vacantAt slots j = true) (hlt : j < slots.size) :
    (L.occupants (L.shift slots i j)).Perm (L.occupants slots) := by
  have hne : j ≠ i := by
    rintro rfl
    rw [hi] at hj
    exact absurd hj (by decide)
  have hfill := occupants_fill hlt hj (show L.vacant (L.slotAt slots i) = false from hi)
  have hstill : L.vacantAt (slots.setIfInBounds j (L.slotAt slots i)) i = false := by
    rwa [vacantAt_setIfInBounds_ne hne]
  have hleave := hL.occupants_vacate hstill
  rw [slotAt_setIfInBounds_ne hne] at hleave
  exact (hleave.symm.trans hfill).cons_inv

end Layout

end LinearProbing
