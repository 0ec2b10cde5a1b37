import LinearProbing.KeyMap
import LinearProbing.Proofs.Scan

/-!
# LinearProbing.Proofs.Slots.GapFilling

**What may fill a gap.** `MetBefore` is the walk from a home, slot by slot, that meets the gap before it reaches
an occupant. Whether it does is what the two comparisons of `canFillGap` find out, for every number of slots
(`canFillGap_iff_metBefore`), and it is what decides whether the occupant is still reached from its home after a
move into the gap (`reached_shift_iff`), and found there by a search (`probe_shift_iff`). Nothing else is asked of
the array than that the other slots of the walk are occupied.
-/

namespace LinearProbing

/-! ### The walk -/

/-- The walk `home`, `home + 1`, and so on, modulo the number of slots, meets `gap` before it reaches `index`. -/
def MetBefore (size home gap index : Nat) : Prop :=
  ∃ steps, offsetSlot size home steps = gap ∧ ∀ g ≤ steps, offsetSlot size home g ≠ index

section MetBefore

variable {size home gap index : Nat}

theorem onWay_iff_metBefore (hhome : home < size) (hgap : gap < size) (hindex : index < size) :
    OnWay size home gap index ↔ MetBefore size home gap index := by
  constructor
  · intro hway
    refine ⟨distance size home gap, offsetSlot_distance hhome hgap, fun g hg heq => ?_⟩
    have hlt := Nat.lt_of_le_of_lt hg hway
    have hdistance := distance_offsetSlot hhome (Nat.lt_trans hlt (distance_lt hhome hindex))
    rw [heq] at hdistance
    exact Nat.ne_of_gt hlt hdistance
  · rintro ⟨steps, rfl, hbefore⟩
    -- the walk may be longer than the ring as far as we know, but it ends before it comes to `index`
    have hlt : steps < distance size home index := by
      by_contra hle
      exact hbefore _ (Nat.not_lt.mp hle) (offsetSlot_distance hhome hindex)
    rw [OnWay, distance_offsetSlot hhome (Nat.lt_trans hlt (distance_lt hhome hindex))]
    exact hlt

/-- **The test by two comparisons** is the walk. -/
theorem canFillGap_iff_metBefore (hhome : home < size) (hgap : gap < size) (hindex : index < size) :
    canFillGap home gap index = true ↔ MetBefore size home gap index :=
  (canFillGap_iff hhome hgap hindex).trans (onWay_iff_metBefore hhome hgap hindex)

end MetBefore

/-! ### The move -/

namespace Layout

variable {σ : Type} {L : Layout σ} {slots : Array σ} {accepts : σ → Bool} {home gap index : Nat}

/-- The occupant of a slot is reached from its home: a walk over occupied slots leads there. -/
def Reached (L : Layout σ) (slots : Array σ) (place : Nat) : Prop :=
  ∃ steps, offsetSlot slots.size (L.home slots.size (L.slotAt slots place)) steps = place ∧
    ∀ g ≤ steps,
      L.vacantAt slots (offsetSlot slots.size (L.home slots.size (L.slotAt slots place)) g) = false

/-- An occupant with the home `home` is at `index`, and all slots of its walk but the gap are occupied. -/
structure GapOnly (L : Layout σ) (slots : Array σ) (home gap index : Nat) : Prop where
  occupied : L.vacantAt slots index = false
  home_eq : L.home slots.size (L.slotAt slots index) = home
  walk : ∀ j, MetBefore slots.size home j index → j ≠ gap → L.vacantAt slots j = false

theorem GapOnly.of_onWay (hL : L.Lawful) (hocc : L.vacantAt slots index = false)
    (hhome : L.home slots.size (L.slotAt slots index) = home)
    (hwalk : ∀ j < slots.size, OnWay slots.size home j index → j ≠ gap → L.vacantAt slots j = false) :
    L.GapOnly slots home gap index := by
  have hindex := hL.lt_size hocc
  have hsize := Nat.zero_lt_of_lt hindex
  refine ⟨hocc, hhome, fun j hmet => ?_⟩
  have hj : j < slots.size := by
    obtain ⟨steps, rfl, -⟩ := hmet
    exact Nat.mod_lt _ hsize
  exact hwalk j hj ((onWay_iff_metBefore (hhome ▸ home_lt hsize) hj hindex).mpr hmet)

/-- The occupant of one slot is accepted, and no other one. -/
structure AcceptsOnly (L : Layout σ) (slots : Array σ) (accepts : σ → Bool) (index : Nat) : Prop where
  accepted : accepts (L.slotAt slots index) = true
  others : ∀ p, p ≠ index → L.vacantAt slots p = false → accepts (L.slotAt slots p) = false

/-- After the move, the slots that the walk meets before the index are occupied. -/
theorem GapOnly.vacantAt_shift (h : L.GapOnly slots home gap index) (hgap : gap < slots.size)
    (hne : gap ≠ index) {j : Nat} (hj : MetBefore slots.size home j index) :
    L.vacantAt (L.shift slots index gap) j = false := by
  by_cases hjg : j = gap
  · rw [hjg, vacantAt, slotAt_shift_target hgap hne.symm]
    exact h.occupied
  · obtain ⟨steps, rfl, hbefore⟩ := hj
    rw [vacantAt, slotAt_shift_ne (Ne.symm (hbefore steps (Nat.le_refl steps))) (Ne.symm hjg)]
    exact h.walk _ ⟨steps, rfl, hbefore⟩ hjg

/-- The slot that was left is vacant. -/
theorem Lawful.ne_source_of_occupied (hL : L.Lawful) {j : Nat}
    (hocc : L.vacantAt (L.shift slots index gap) j = false) : j ≠ index := by
  rintro rfl
  exact absurd (hocc.symm.trans hL.vacantAt_shift_source) (by decide)

/-- After the move, the occupant in the gap is the one that is accepted. -/
theorem AcceptsOnly.eq_gap_of_shift (haccepts : L.AcceptsOnly slots accepts index) (hL : L.Lawful) {j : Nat}
    (hocc : L.vacantAt (L.shift slots index gap) j = false)
    (hacc : accepts (L.slotAt (L.shift slots index gap) j) = true) : j = gap := by
  by_contra hjg
  have hji := hL.ne_source_of_occupied hocc
  have hkept : L.slotAt (L.shift slots index gap) j = L.slotAt slots j :=
    slotAt_shift_ne (Ne.symm hji) (Ne.symm hjg)
  rw [vacantAt, hkept] at hocc
  rw [hkept] at hacc
  exact absurd (hacc.symm.trans (haccepts.others j hji hocc)) (by decide)

/-- **An occupant that is moved into a gap is reached there** if the walk from its home meets the gap before the
slot that it leaves. -/
theorem reached_shift_iff (hL : L.Lawful) (h : L.GapOnly slots home gap index) (hgap : gap < slots.size)
    (hne : gap ≠ index) :
    L.Reached (L.shift slots index gap) gap ↔ MetBefore slots.size home gap index := by
  rw [Reached, slotAt_shift_target hgap hne.symm, size_shift, h.home_eq]
  constructor
  · rintro ⟨steps, hstop, hoccupied⟩
    exact ⟨steps, hstop, fun g hg => hL.ne_source_of_occupied (hoccupied g hg)⟩
  · rintro ⟨steps, hstop, hbefore⟩
    refine ⟨steps, hstop, fun g hg => h.vacantAt_shift hgap hne ⟨g, rfl, fun g' hg' => ?_⟩⟩
    exact hbefore g' (Nat.le_trans hg' hg)

/-- A search that finds the moved occupant did not come by the slot that it left. -/
theorem onWay_of_searched_shift (hL : L.Lawful) (hhome : home < slots.size) (hgap : gap < slots.size)
    (hindex : index < slots.size) (hne : gap ≠ index)
    (hsearch : L.Searched (L.shift slots index gap) accepts home (.found gap)) :
    OnWay slots.size home gap index := by
  cases hsearch with
  | found _ _ _ passed =>
      have hnot : ¬ OnWay slots.size home index gap := by
        intro hway
        have hocc := (passed index (by rwa [size_shift]) (by rwa [size_shift])).1
        exact hL.ne_source_of_occupied hocc rfl
      have hfar : distance slots.size home gap ≠ distance slots.size home index := fun heq =>
        hne (distance_inj hhome hgap hindex heq)
      unfold OnWay at hnot ⊢
      omega

/-- A search whose walk meets the gap first ends there: it neither stops before, since all slots up to the gap are
occupied, nor goes on. -/
theorem GapOnly.eq_found_of_searched_shift (h : L.GapOnly slots home gap index) (hL : L.Lawful)
    (haccepts : L.AcceptsOnly slots accepts index) (hgap : gap < slots.size) (hne : gap ≠ index)
    (hway : OnWay slots.size home gap index) {outcome : Probe}
    (hsearch : L.Searched (L.shift slots index gap) accepts home outcome) : outcome = .found gap := by
  have hindex := hL.lt_size h.occupied
  have hhome : home < slots.size := h.home_eq ▸ home_lt (Nat.zero_lt_of_lt hgap)
  cases hsearch with
  | found _ hocc hacc _ => rw [haccepts.eq_gap_of_shift hL hocc hacc]
  -- a search that ends in a vacant slot has not come to the gap, where the entry is now; so it ended before,
  -- in a slot that the walk to the old place has found occupied
  | @vacant i hi hvac passed =>
      exfalso
      rw [size_shift] at hi
      by_cases hbefore : OnWay slots.size home gap i
      · have hrefused := (passed gap (by rwa [size_shift]) (by rwa [size_shift])).2
        rw [slotAt_shift_target hgap hne.symm, haccepts.accepted] at hrefused
        exact absurd hrefused (by decide)
      · have hmet : OnWay slots.size home i index := by
          unfold OnWay at hway hbefore ⊢
          omega
        have hocc := h.vacantAt_shift hgap hne ((onWay_iff_metBefore hhome hi hindex).mp hmet)
        exact absurd (hocc.symm.trans hvac) (by decide)

/-- **A search from its home finds the moved occupant** under the same condition. -/
theorem probe_shift_iff (hL : L.Lawful) (h : L.GapOnly slots home gap index)
    (haccepts : L.AcceptsOnly slots accepts index) (hgap : gap < slots.size) (hne : gap ≠ index) :
    L.probe (L.shift slots index gap) accepts home = .found gap ↔ MetBefore slots.size home gap index := by
  have hindex := hL.lt_size h.occupied
  have hhome : home < slots.size := h.home_eq ▸ home_lt (Nat.zero_lt_of_lt hgap)
  have hleft : L.vacantAt (L.shift slots index gap) index = true := hL.vacantAt_shift_source
  have hsearch : L.Searched (L.shift slots index gap) accepts home
      (L.probe (L.shift slots index gap) accepts home) :=
    probe_searched ⟨index, by rwa [size_shift], hleft⟩ (by rwa [size_shift])
  rw [← onWay_iff_metBefore hhome hgap hindex]
  constructor
  · intro hfound
    exact onWay_of_searched_shift hL hhome hgap hindex hne (hfound ▸ hsearch)
  · intro hway
    exact h.eq_found_of_searched_shift hL haccepts hgap hne hway hsearch

end Layout

/-- **`canFillGap` is membership in a cyclic interval**, for every number of slots. It holds exactly when the walk
from the home meets the gap before the index; and that is exactly when an occupant with this home at the index,
all other slots of whose walk are occupied, is reached from its home, and found by a search from there, once it was
moved into the gap. -/
theorem canFillGap_exact {size home gap index : Nat} (hhome : home < size) (hgap : gap < size)
    (hindex : index < size) (hne : gap ≠ index) :
    (canFillGap home gap index = true ↔ MetBefore size home gap index) ∧
      ∀ {σ : Type} {L : Layout σ} {slots : Array σ}, L.Lawful → slots.size = size →
        L.GapOnly slots home gap index →
          (canFillGap home gap index = true ↔ L.Reached (L.shift slots index gap) gap) ∧
            ∀ {accepts : σ → Bool}, L.AcceptsOnly slots accepts index →
              (canFillGap home gap index = true ↔
                L.probe (L.shift slots index gap) accepts home = .found gap) := by
  have htest := canFillGap_iff_metBefore hhome hgap hindex
  refine ⟨htest, ?_⟩
  rintro σ L slots hL rfl hwalk
  refine ⟨htest.trans (Layout.reached_shift_iff hL hwalk hgap hne).symm, fun haccepts => ?_⟩
  exact htest.trans (Layout.probe_shift_iff hL hwalk haccepts hgap hne).symm

/-- On a ring of eight slots, the walk from 6 to 1 goes round the end. It meets a gap at 7, but not one at 3; so
the occupant of the slot 1 is found at 7 when it is moved there, and would be lost at 3. -/
theorem canFillGap_exact_wrapping :
    let L := (EntrySlot.layout :
      EntryLayout (Option (Bucket String Int32)) String (Option Int32)).layout
    let entry : UInt64 → String → Option (Bucket String Int32) := fun hash key => some ⟨hash, key, none⟩
    let near := #[entry 7 "c", entry 6 "d", none, none, none, none, entry 6 "a", none]
    let far := #[entry 7 "c", entry 6 "d", none, none, none, none, entry 6 "a", entry 7 "b"]
    let isD : Option (Bucket String Int32) → Bool := fun s => (s.map Bucket.key).any (· == "d")
    MetBefore 8 6 7 1 ∧ ¬ MetBefore 8 6 3 1 ∧ L.Lawful ∧
      (L.GapOnly near 6 7 1 ∧ L.AcceptsOnly near isD 1 ∧ L.Reached (L.shift near 1 7) 7 ∧
        L.probe (L.shift near 1 7) isD 6 = .found 7) ∧
      L.GapOnly far 6 3 1 ∧ ¬ L.Reached (L.shift far 1 3) 3 := by
  intro L entry near far isD
  have hL : L.Lawful := ⟨rfl, fun _ => rfl⟩
  have hnear : L.GapOnly near 6 7 1 := .of_onWay hL rfl rfl (by unfold OnWay; decide +kernel)
  have hfar : L.GapOnly far 6 3 1 := .of_onWay hL rfl rfl (by unfold OnWay; decide +kernel)
  -- the entry whose home is past the gap would be lost by the move, the other one is found
  have hisD : L.AcceptsOnly near isD 1 := by
    have hothers : ∀ p < near.size, p ≠ 1 → L.vacantAt near p = false → isD (L.slotAt near p) = false := by
      decide +kernel
    exact ⟨by decide +kernel, fun p hp hocc => hothers p (hL.lt_size hocc) hp hocc⟩
  obtain ⟨hmeets, hmoves⟩ :=
    @canFillGap_exact 8 6 7 1 (by decide) (by decide) (by decide) (by decide)
  obtain ⟨hmisses, hloses⟩ :=
    @canFillGap_exact 8 6 3 1 (by decide) (by decide) (by decide) (by decide)
  obtain ⟨hreached, hfound⟩ := hmoves hL rfl hnear
  obtain ⟨hlost, -⟩ := hloses hL rfl hfar
  refine ⟨hmeets.mp (by decide), mt hmisses.mpr (by decide), hL,
    ⟨hnear, hisD, hreached.mp (by decide), (hfound hisD).mp (by decide)⟩, hfar, mt hlost.mpr (by decide)⟩

end LinearProbing
