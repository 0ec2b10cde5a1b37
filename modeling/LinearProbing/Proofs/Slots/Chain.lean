import LinearProbing.Proofs.Ring
import LinearProbing.Proofs.Slots.Occupants

/-!
# LinearProbing.Proofs.Slots.Chain

**The probing invariant.** `Layout.Chained` says that all slots on the way from the home of an occupant to
its place are occupied. This is what makes a search right that stops at the first vacant slot:

* `probe_searched` — what the search from a home finds out, as long as some slot is vacant; in particular
  it ends;
* `Searched.not_accepts` — in a chained array, a search that ends at a vacant slot has missed nothing;
* `Chained.fill`, `Chained.replace` — an array stays chained when the slot that a search ended at is
  filled, and when an occupant is overwritten by one with the same hash.
-/

namespace LinearProbing.Layout

variable {σ : Type} {L : Layout σ} {slots : Array σ} {accepts : σ → Bool} {home i : Nat} {s : σ}

/-- All slots on the way from the home of an occupant to its place are occupied. -/
def Chained (L : Layout σ) (slots : Array σ) : Prop :=
  ∀ i < slots.size, L.vacantAt slots i = false →
    ∀ j < slots.size, OnWay slots.size (L.home slots.size (L.slotAt slots i)) j i →
      L.vacantAt slots j = false

theorem home_lt (h : 0 < slots.size) : L.home slots.size s < slots.size := homeSlot_lt h

/-! ### Searching -/

/-- The slots on the way from `home` to `i` are occupied, and none of them is accepted. -/
def Passed (L : Layout σ) (slots : Array σ) (accepts : σ → Bool) (home i : Nat) : Prop :=
  ∀ j < slots.size, OnWay slots.size home j i →
    L.vacantAt slots j = false ∧ accepts (L.slotAt slots j) = false

/-- What is known where the search from a home has ended. -/
inductive Searched (L : Layout σ) (slots : Array σ) (accepts : σ → Bool) (home : Nat) : Probe → Prop
  | found {i : Nat} (hi : i < slots.size) (occupied : L.vacantAt slots i = false)
      (accepted : accepts (L.slotAt slots i) = true) (passed : L.Passed slots accepts home i) :
      Searched L slots accepts home (.found i)
  | vacant {i : Nat} (hi : i < slots.size) (vacant : L.vacantAt slots i = true)
      (passed : L.Passed slots accepts home i) : Searched L slots accepts home (.vacant i)

/-- A slot that is passed over lengthens the way by one. -/
theorem Passed.of_next (hh : home < slots.size) (hi : i < slots.size) (hne : home ≠ i)
    (hocc : L.vacantAt slots home = false) (hacc : accepts (L.slotAt slots home) = false)
    (h : L.Passed slots accepts (nextSlot slots.size home) i) : L.Passed slots accepts home i := by
  intro j hj hway
  by_cases hjh : home = j
  · exact hjh ▸ ⟨hocc, hacc⟩
  · refine h j hj ?_
    have h1 := distance_nextSlot_left hh hi hne
    have h2 := distance_nextSlot_left hh hj hjh
    unfold OnWay at hway ⊢
    omega

/-- The search ends, as there is a vacant slot less than `steps` slots ahead. -/
theorem probeFrom_searched {v steps : Nat} (hv : v < slots.size) (hvac : L.vacantAt slots v = true)
    (hh : home < slots.size) (hd : distance slots.size home v < steps) :
    L.Searched slots accepts home (L.probeFrom slots accepts steps home) := by
  -- the steps cover the distance to a vacant slot, and each step comes one nearer to it
  induction steps generalizing home with
  | zero => exact absurd hd (Nat.not_lt_zero _)
  | succ steps ih =>
      rw [probeFrom]
      have hstart : L.Passed slots accepts home home := fun j _ hway => by
        simp [OnWay] at hway
      by_cases hocc : L.vacantAt slots home = true
      · rw [if_pos hocc]
        exact .vacant hh hocc hstart
      · rw [if_neg hocc]
        rw [Bool.not_eq_true] at hocc
        by_cases hacc : accepts (L.slotAt slots home) = true
        · rw [if_pos hacc]
          exact .found hh hocc hacc hstart
        · rw [if_neg hacc]
          rw [Bool.not_eq_true] at hacc
          -- the slot at hand is occupied, hence is not that vacant one, and the way to it goes on
          have hne : home ≠ v := fun h => by simp [h ▸ hocc] at hvac
          have hnear := distance_nextSlot_left hh hv hne
          have hrest := ih (nextSlot_lt hh) (by omega)
          generalize L.probeFrom slots accepts steps (nextSlot slots.size home) = outcome at hrest ⊢
          -- what the rest of the search passed, and this slot before it, was passed from here
          cases hrest with
          | found hi hocc' hacc' hpass =>
              refine .found hi hocc' hacc' (hpass.of_next hh hi ?_ hocc hacc)
              rintro rfl
              exact absurd (hacc.symm.trans hacc') (by decide)
          | vacant hi hvac' hpass =>
              refine .vacant hi hvac' (hpass.of_next hh hi ?_ hocc hacc)
              rintro rfl
              exact absurd (hocc.symm.trans hvac') (by decide)

/-- **The search from a home slot** ends in an array with a vacant slot, and at the first slot that is
vacant or accepted. -/
theorem probe_searched (hv : ∃ v < slots.size, L.vacantAt slots v = true) (hh : home < slots.size) :
    L.Searched slots accepts home (L.probe slots accepts home) := by
  obtain ⟨v, hlt, hvac⟩ := hv
  exact probeFrom_searched hlt hvac hh (distance_lt hh hlt)

/-- A search among slots that are all taken by others never ends. -/
theorem probeFrom_eq_endless (hocc : ∀ i < slots.size, L.vacantAt slots i = false)
    (hacc : ∀ i < slots.size, accepts (L.slotAt slots i) = false) (steps : Nat) {index : Nat}
    (hindex : index < slots.size) : L.probeFrom slots accepts steps index = .endless := by
  induction steps generalizing index with
  | zero => rfl
  | succ steps ih =>
      rw [probeFrom, if_neg (by simp [hocc index hindex]), if_neg (by simp [hacc index hindex])]
      exact ih (nextSlot_lt hindex)

/-- In a chained array, a search that ends at a vacant slot has met every occupant of its home. -/
theorem Searched.not_accepts (h : L.Searched slots accepts home (.vacant i)) (hc : L.Chained slots)
    {p : Nat} (hp : p < slots.size) (hocc : L.vacantAt slots p = false)
    (hhome : L.home slots.size (L.slotAt slots p) = home) : accepts (L.slotAt slots p) = false := by
  cases h with
  | vacant hi hvac passed =>
      have hsize : 0 < slots.size := Nat.zero_lt_of_lt hi
      -- before the vacant slot it was met, behind it the chain would be broken
      rcases Nat.lt_trichotomy (distance slots.size home p) (distance slots.size home i) with
        hlt | heq | hgt
      · exact (passed p hp hlt).2
      · have := distance_inj (hhome ▸ home_lt hsize) hp hi heq
        exact absurd (this ▸ hocc) (by simp [hvac])
      · exact absurd (hc p hp hocc i hi (by rw [hhome]; exact hgt)) (by simp [hvac])

/-- The search for a vacant slot is a search that accepts nothing. -/
theorem firstVacantFrom_eq_probeFrom (steps home : Nat) :
    L.firstVacantFrom slots steps home =
      match L.probeFrom slots (fun _ => false) steps home with
      | .vacant i => some i
      | .found _ | .endless => none := by
  induction steps generalizing home with
  | zero => rfl
  | succ steps ih =>
      rw [firstVacantFrom, probeFrom]
      by_cases h : L.vacantAt slots home = true
      · rw [if_pos h, if_pos h]
      · rw [if_neg h, if_neg h, if_neg (by decide)]
        exact ih _

/-- Where a search ends at a vacant slot, the search for any vacant slot ends too. -/
theorem firstVacantFrom_of_probeFrom {steps index : Nat}
    (h : L.probeFrom slots accepts steps index = .vacant i) :
    L.firstVacantFrom slots steps index = some i := by
  induction steps generalizing index with
  | zero => cases h
  | succ steps ih =>
      rw [probeFrom] at h
      rw [firstVacantFrom]
      by_cases hvac : L.vacantAt slots index = true
      · rw [if_pos hvac] at h ⊢
        exact congrArg some (Probe.vacant.inj h)
      rw [if_neg hvac] at h ⊢
      split at h
      · cases h
      · exact ih h

theorem firstVacant?_spec (hv : ∃ v < slots.size, L.vacantAt slots v = true)
    (hh : home < slots.size) :
    ∃ i, L.firstVacant? slots home = some i ∧
      L.Searched slots (fun _ => false) home (.vacant i) := by
  have h : L.Searched slots (fun _ => false) home (L.probe slots (fun _ => false) home) :=
    probe_searched hv hh
  rw [firstVacant?, firstVacantFrom_eq_probeFrom]
  rw [probe] at h
  -- a search that accepts nothing can only stop at a vacant slot
  cases hp : L.probeFrom slots (fun _ => false) slots.size home with
  | vacant i => exact ⟨i, rfl, hp ▸ h⟩
  | found i =>
      rw [hp] at h
      cases h with
      | found _ _ hacc _ => exact absurd hacc (by decide)
  | endless =>
      rw [hp] at h
      cases h

/-! ### Filling and overwriting -/

theorem Lawful.chained_replicate (hL : L.Lawful) (n : Nat) :
    L.Chained (Array.replicate n L.empty) := by
  intro i _ hocc
  rw [hL.vacantAt_replicate] at hocc
  exact absurd hocc (by decide)

/-- Filling the vacant slot at which a search ended, by an occupant whose home is the start of the
search, keeps the array chained. -/
theorem Chained.fill (hc : L.Chained slots) (hs : L.vacant s = false)
    (h : L.Searched slots accepts (L.home slots.size s) (.vacant i)) :
    L.Chained (slots.setIfInBounds i s) := by
  cases h with
  | vacant hi hvac passed =>
      intro p hp hocc j hj hway
      simp only [Array.size_setIfInBounds] at hp hj hway
      -- a slot that others were chained through is not made vacant, whichever slot is filled
      by_cases hji : i = j
      · rwa [hji, vacantAt_setIfInBounds_self hj]
      rw [vacantAt_setIfInBounds_ne hji]
      by_cases hpi : i = p
      · -- the new entry itself: its chain is what the search has passed
        subst hpi
        rw [slotAt_setIfInBounds_self hp] at hway
        exact (passed j hj hway).1
      · rw [slotAt_setIfInBounds_ne hpi] at hway
        rw [vacantAt_setIfInBounds_ne hpi] at hocc
        exact hc p hp hocc j hj hway

/-- An occupant may be overwritten by another one with the same hash. -/
theorem Chained.replace (hc : L.Chained slots) (hi : i < slots.size)
    (hocc : L.vacantAt slots i = false) (hs : L.vacant s = false)
    (hhash : L.hash s = L.hash (L.slotAt slots i)) : L.Chained (slots.setIfInBounds i s) := by
  -- neither the occupied slots nor the homes in them change
  have hvac : ∀ j, L.vacantAt (slots.setIfInBounds i s) j = L.vacantAt slots j := by
    intro j
    by_cases hji : i = j
    · rw [← hji, vacantAt_setIfInBounds_self hi, hs, hocc]
    · exact vacantAt_setIfInBounds_ne hji
  have hhome : ∀ p, L.home slots.size (L.slotAt (slots.setIfInBounds i s) p) =
      L.home slots.size (L.slotAt slots p) := by
    intro p
    by_cases hpi : i = p
    · rw [← hpi, slotAt_setIfInBounds_self hi, home, home, hhash]
    · rw [slotAt_setIfInBounds_ne hpi]
  intro p hp hp_occ j hj hway
  simp only [Array.size_setIfInBounds] at hp hj hway
  rw [hvac] at hp_occ ⊢
  rw [hhome] at hway
  exact hc p hp hp_occ j hj hway

end LinearProbing.Layout
