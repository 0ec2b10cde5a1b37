import LinearProbing.KeyMap
import LinearProbing.Proofs.Slots.CloseGap
import Mathlib.Data.Set.Function

/-!
# LinearProbing.Proofs.Slots.Deletion

**Where the occupants go when one of them is deleted.** Every round of the loop that closes the gap
(`Layout.Closes`) leaves the occupants where they are, but for one at most, which it moves into the gap.
What one round does to their places (`GapInvariant.relocated_shift`) therefore composes to what the whole
loop does (`Closes.relocated`): each occupant ends on the walk from its home to the slot that it had.
`deleted_of_chained` puts this together with what is known of the array that is left.
-/

namespace LinearProbing

/-- The walk from `home` to `index` comes by `slot`, or ends there. -/
def OnWalk (size home slot index : Nat) : Prop :=
  distance size home slot + distance size slot index = distance size home index

section OnWalk

variable {size home gap slot index : Nat}

theorem onWalk_self : OnWalk size home index index := by simp [OnWalk]

theorem OnWalk.distance_le (h : OnWalk size home slot index) :
    distance size home slot ≤ distance size home index := by
  unfold OnWalk at h
  omega

/-- A slot on the way to another one is on the walk there. -/
theorem OnWay.onWalk (h : OnWay size home gap index) (hh : home < size) (hi : index < size) :
    OnWalk size home gap index := by
  unfold OnWay at h
  unfold OnWalk
  grind [distance]

/-- A walk that ends on another one is a part of it. -/
theorem OnWalk.trans (h : OnWalk size home slot gap) (h' : OnWalk size home gap index)
    (hh : home < size) (hs : slot < size) (hg : gap < size) : OnWalk size home slot index := by
  unfold OnWalk at h h' ⊢
  grind [distance]

end OnWalk

namespace Layout

variable {σ : Type} {L : Layout σ} {slots result : Array σ} {gap index v steps : Nat}

/-! ### Places -/

/-- Where the occupants of one array are in another one. -/
structure Relocated (L : Layout σ) (slots result : Array σ) (place : Nat → Nat) : Prop where
  size_eq : result.size = slots.size
  /-- Each occupant has one new place, and there are no others. -/
  bijOn : Set.BijOn place {p | L.vacantAt slots p = false} {q | L.vacantAt result q = false}
  slotAt_eq : ∀ p, L.vacantAt slots p = false → L.slotAt result (place p) = L.slotAt slots p
  /-- It is on the walk from the home of the occupant to the former place. -/
  onWalk : ∀ p, L.vacantAt slots p = false →
    OnWalk slots.size (L.home slots.size (L.slotAt slots p)) (place p) p

theorem relocated_id (L : Layout σ) (slots : Array σ) : Relocated L slots slots id where
  size_eq := rfl
  bijOn := Set.bijOn_id _
  slotAt_eq _ _ := rfl
  onWalk _ _ := onWalk_self

theorem Relocated.trans (hL : L.Lawful) {middle : Array σ} {place place' : Nat → Nat}
    (h : Relocated L slots middle place) (h' : Relocated L middle result place') :
    Relocated L slots result (place' ∘ place) where
  size_eq := h'.size_eq.trans h.size_eq
  bijOn := h'.bijOn.comp h.bijOn
  slotAt_eq p hp := (h'.slotAt_eq _ (h.bijOn.mapsTo hp)).trans (h.slotAt_eq p hp)
  onWalk p hp := by
    have hmiddle : L.vacantAt middle (place p) = false := h.bijOn.mapsTo hp
    have hresult : L.vacantAt result (place' (place p)) = false := h'.bijOn.mapsTo hmiddle
    -- both moves go backwards on the walk from one home, which the entry carries along
    have hlast := h'.onWalk _ hmiddle
    rw [h.slotAt_eq p hp, h.size_eq] at hlast
    have hp_lt := hL.lt_size hp
    have hmiddle_lt := hL.lt_size hmiddle
    have hresult_lt := hL.lt_size hresult
    rw [h.size_eq] at hmiddle_lt
    rw [h'.size_eq, h.size_eq] at hresult_lt
    exact hlast.trans (h.onWalk p hp) (home_lt (Nat.zero_lt_of_lt hp_lt)) hresult_lt hmiddle_lt

/-- **One move** takes one occupant into the gap on its way. -/
theorem GapInvariant.relocated_shift (hL : L.Lawful) (h : GapInvariant L slots gap index v)
    (hocc : L.vacantAt slots index = false)
    (hway : OnWay slots.size (L.home slots.size (L.slotAt slots index)) gap index) :
    Relocated L slots (L.shift slots index gap) fun p => if p = index then gap else p := by
  have hne : index ≠ gap := h.index_ne_gap.symm
  have hgap : ∀ p, L.vacantAt slots p = false → p ≠ gap := by
    rintro p hp rfl
    exact absurd (hp.symm.trans h.gap_vacant) (by decide)
  have hmoved : L.slotAt (L.shift slots index gap) gap = L.slotAt slots index :=
    slotAt_shift_target h.gap_lt hne
  have hkept : ∀ p, p ≠ index → p ≠ gap → L.slotAt (L.shift slots index gap) p = L.slotAt slots p :=
    fun p hi hg => slotAt_shift_ne (Ne.symm hi) (Ne.symm hg)
  have hslot : ∀ p, L.vacantAt slots p = false →
      L.slotAt (L.shift slots index gap) (if p = index then gap else p) = L.slotAt slots p := by
    intro p hp
    by_cases hpi : p = index
    · rw [if_pos hpi, hmoved, hpi]
    · rw [if_neg hpi, hkept p hpi (hgap p hp)]
  refine ⟨size_shift, ⟨?_, ?_, ?_⟩, hslot, ?_⟩
  · intro p hp
    show L.vacant (L.slotAt (L.shift slots index gap) (if p = index then gap else p)) = false
    rw [hslot p hp]
    exact hp
  · intro p hp q hq heq
    have hpg := hgap p hp
    have hqg := hgap q hq
    dsimp only at heq
    -- the gap holds nobody, so it is the place of nobody but the one that is moved
    split_ifs at heq with hpi hqi hqi
    · exact hpi.trans hqi.symm
    · exact absurd heq.symm hqg
    · exact absurd heq hpg
    · exact heq
  · intro q hq
    have hqi : q ≠ index := by
      rintro rfl
      exact absurd (hL.vacantAt_shift_source.symm.trans hq) (by decide)
    by_cases hqg : q = gap
    · exact ⟨index, hocc, by rw [hqg]; exact if_pos rfl⟩
    · refine ⟨q, ?_, if_neg hqi⟩
      show L.vacant (L.slotAt slots q) = false
      rw [← hkept q hqi hqg]
      exact hq
  · intro p hp
    by_cases hpi : p = index
    · rw [if_pos hpi, hpi]
      exact hway.onWalk (home_lt (Nat.zero_lt_of_lt h.gap_lt)) h.index_lt
    · rw [if_neg hpi]
      exact onWalk_self

/-- **The loop takes every occupant to a place on the walk from its home.** -/
theorem Closes.relocated (hL : L.Lawful) (h : L.Closes gap index slots steps result)
    (hinv : GapInvariant L slots gap index v) : ∃ place, Relocated L slots result place := by
  induction h with
  | stop _ => exact ⟨id, relocated_id L _⟩
  | move occupied fills _ ih =>
      have hway := hinv.canFillGap_iff.mp fills
      obtain ⟨place, hplace⟩ := ih (hinv.move hL occupied hway)
      exact ⟨_, (hinv.relocated_shift hL occupied hway).trans hL hplace⟩
  | pass occupied stays _ ih =>
      exact ih (hinv.stay occupied fun hway => by simp [hinv.canFillGap_iff.mpr hway] at stays)

/-! ### Deletion -/

/-- The slot `index` is the gap or in the run of occupied slots that follows it. -/
def InRun (L : Layout σ) (slots : Array σ) (gap index : Nat) : Prop :=
  ∀ j < slots.size, 0 < distance slots.size gap j →
    distance slots.size gap j ≤ distance slots.size gap index → L.vacantAt slots j = false

/-- What is left when the occupant of the slot `gap` was deleted. -/
structure Deleted (L : Layout σ) (slots result : Array σ) (gap : Nat) : Prop where
  /-- The loop has ended by itself, after fewer rounds than there are slots. -/
  ends : ∃ steps < slots.size,
    L.Closes gap (nextSlot slots.size gap) (L.vacate slots gap) steps result
  size_eq : result.size = slots.size
  /-- The occupants are the former ones without the deleted one. -/
  occupants : (L.occupants slots).Perm (L.slotAt slots gap :: L.occupants result)
  /-- All slots on the way from the home of an occupant to its place are occupied. -/
  chained : L.Chained result
  /-- Every other occupant has one place in the array that is left, and there are no others. The place
  is neither before its home nor further from it than the one that it had. -/
  places : ∃ place : Nat → Nat,
    Set.BijOn place {p | p ≠ gap ∧ L.vacantAt slots p = false} {q | L.vacantAt result q = false} ∧
      ∀ p, p ≠ gap → L.vacantAt slots p = false →
        L.slotAt result (place p) = L.slotAt slots p ∧
        OnWalk slots.size (L.home slots.size (L.slotAt slots p)) (place p) p ∧
        distance slots.size (L.home slots.size (L.slotAt slots p)) (place p) ≤
          distance slots.size (L.home slots.size (L.slotAt slots p)) p
  /-- What is neither the gap nor in the run behind it is as it was. -/
  frame : ∀ j < slots.size, ¬ L.InRun slots gap j → L.slotAt result j = L.slotAt slots j

theorem Lawful.vacantAt_vacate_iff (hL : L.Lawful) (p : Nat) :
    L.vacantAt (L.vacate slots gap) p = false ↔ p ≠ gap ∧ L.vacantAt slots p = false := by
  by_cases hp : p = gap
  · subst hp
    simp [hL.vacantAt_vacate_self]
  · simp [vacantAt_vacate_ne (Ne.symm hp), hp]

/-- **Deletion without marks.** In an array with a vacant slot in which every occupant is reached from its
home, any occupied slot may be emptied and the gap closed; the homes are arbitrary. -/
theorem deleted_of_chained {σ : Type} {L : Layout σ} (hL : L.Lawful) {slots : Array σ} {gap : Nat}
    (hc : L.Chained slots) (hroom : ∃ v < slots.size, L.vacantAt slots v = true)
    (hocc : L.vacantAt slots gap = false) :
    Deleted L slots (L.closeGap (L.vacate slots gap) gap) gap := by
  obtain ⟨v, hv, hvac⟩ := hroom
  have hclosed := erase_closed hL hc hocc hv hvac
  obtain ⟨steps, hfewer, hloop⟩ := erase_closes hL hc hocc hv hvac
  obtain ⟨place, hplace⟩ :=
    hloop.relocated hL (GapInvariant.start hL hc (hL.lt_size hocc) hocc hv hvac)
  have hkept : ∀ p, p ≠ gap → L.slotAt (L.vacate slots gap) p = L.slotAt slots p :=
    fun p hp => slotAt_vacate_ne (Ne.symm hp)
  exact
    { ends := ⟨steps, hfewer, hloop⟩
      size_eq := hclosed.size_eq.trans size_vacate
      occupants := (hL.occupants_vacate hocc).trans (hclosed.occupants.symm.cons _)
      chained := hclosed.chained
      places := by
        refine ⟨place, ?_, ?_⟩
        · simpa only [hL.vacantAt_vacate_iff] using hplace.bijOn
        · intro p hp hpocc
          have hvacated := (hL.vacantAt_vacate_iff p).mpr ⟨hp, hpocc⟩
          have hwalk := hplace.onWalk p hvacated
          rw [size_vacate, hkept p hp] at hwalk
          exact ⟨(hplace.slotAt_eq p hvacated).trans (hkept p hp), hwalk, hwalk.distance_le⟩
      frame := by
        intro j hj houtside
        simp only [InRun, not_forall, Bool.not_eq_false] at houtside
        obtain ⟨w, hw, hpos, hle, hwvac⟩ := houtside
        have hne : gap ≠ j := by
          rintro rfl
          simp only [distance_self] at hle
          omega
        -- nothing changes from the vacant slot `w` on, which comes before `j`
        have hframe := (erase_closed hL hc hocc hw hwvac).frame j (by rwa [size_vacate])
          (by rwa [size_vacate])
        exact hframe.trans (hkept j hne.symm) }

/-- A run that wraps around the end of the ring. The occupant of the slot 2 is in its home and stays
there, and the one behind it is moved past it. -/
theorem deleted_of_chained_wrapping :
    let L := (EntrySlot.layout :
      EntryLayout (Option (Bucket String Int32)) String (Option Int32)).layout
    let entry : UInt64 → String → Option (Bucket String Int32) := fun hash key => some ⟨hash, key, none⟩
    let slots := #[entry 7 "c", entry 6 "d", entry 2 "e", entry 0 "f", none, none, entry 6 "a",
      entry 6 "b"]
    let result := L.closeGap (L.vacate slots 6) 6
    L.Lawful ∧ L.Chained slots ∧ (∃ v < slots.size, L.vacantAt slots v = true) ∧
      L.vacantAt slots 6 = false ∧
      result.toList.map (·.map Bucket.key) =
        [some "d", some "f", some "e", none, none, none, some "b", some "c"] ∧
      Deleted L slots result 6 := by
  intro L entry slots result
  have hL : L.Lawful := ⟨rfl, fun _ => rfl⟩
  have hc : L.Chained slots := by
    unfold Chained OnWay
    decide +kernel
  have hroom : ∃ v < slots.size, L.vacantAt slots v = true := ⟨4, by decide, rfl⟩
  have hocc : L.vacantAt slots 6 = false := rfl
  exact ⟨hL, hc, hroom, hocc, by decide +kernel, deleted_of_chained hL hc hroom hocc⟩

end Layout

end LinearProbing
