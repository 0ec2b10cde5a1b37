import LinearProbing.Proofs.Slots.Chain

/-!
# LinearProbing.Proofs.Slots.CloseGap

**Closing the gap of a deletion.** `Layout.closeGap` walks the run behind a vacated slot and moves
occupants back. The array is chained again when it has ended (`erase_closed`), it has the same occupants,
and nothing has changed from the next vacant slot on.

`Layout.Closes` is the loop without a bound on its length. It ends by itself (`erase_closes`), so the bound
that the library gives it is never felt (`Closes.closeGapFrom_eq`).

The loop carries `GapInvariant`: every occupant is reached from its home but for the one hole at the gap,
and the occupants already passed do not have that hole on their way. One step either passes an occupant
(`GapInvariant.stay`) or moves it (`GapInvariant.move`); at the end of the run the hole is on nobody's way
(`GapInvariant.chained`).
-/

namespace LinearProbing.Layout

variable {σ : Type} {L : Layout σ} {slots result : Array σ} {gap index v steps : Nat}

/-! ### The loop -/

/-- The loop that closes a gap: `gap` is the hole at present and `index` the next slot to look at. After so
many rounds it ends and leaves `result`. -/
inductive Closes (L : Layout σ) : (gap index : Nat) → Array σ → (steps : Nat) → (result : Array σ) → Prop
  | stop {gap index : Nat} {slots : Array σ} (vacant : L.vacantAt slots index = true) :
      Closes L gap index slots 0 slots
  | move {gap index steps : Nat} {slots result : Array σ} (occupied : L.vacantAt slots index = false)
      (fills : canFillGap (L.home slots.size (L.slotAt slots index)) gap index = true)
      (rest : Closes L index (nextSlot slots.size index) (L.shift slots index gap) steps result) :
      Closes L gap index slots (steps + 1) result
  | pass {gap index steps : Nat} {slots result : Array σ} (occupied : L.vacantAt slots index = false)
      (stays : canFillGap (L.home slots.size (L.slotAt slots index)) gap index = false)
      (rest : Closes L gap (nextSlot slots.size index) slots steps result) :
      Closes L gap index slots (steps + 1) result

/-- A bound beyond the number of rounds is not felt. -/
theorem Closes.closeGapFrom_eq (h : L.Closes gap index slots steps result) {bound : Nat}
    (hbound : steps < bound) : L.closeGapFrom bound gap index slots = result := by
  induction h generalizing bound with
  | stop vacant =>
      obtain ⟨bound, rfl⟩ := Nat.exists_eq_succ_of_ne_zero (Nat.ne_zero_of_lt hbound)
      rw [closeGapFrom, if_pos vacant]
  | move occupied fills _ ih =>
      obtain ⟨bound, rfl⟩ := Nat.exists_eq_succ_of_ne_zero (Nat.ne_zero_of_lt hbound)
      rw [closeGapFrom, if_neg (by simp [occupied]), if_pos fills]
      exact ih (by omega)
  | pass occupied stays _ ih =>
      obtain ⟨bound, rfl⟩ := Nat.exists_eq_succ_of_ne_zero (Nat.ne_zero_of_lt hbound)
      rw [closeGapFrom, if_neg (by simp [occupied]), if_neg (by simp [stays])]
      exact ih (by omega)

/-! ### Its invariant -/

/-- What holds while the gap of a deletion is being closed: `gap` is the hole at present, `index` the next
slot to look at, and `v` a vacant slot that the walk has not reached. -/
structure GapInvariant (L : Layout σ) (slots : Array σ) (gap index v : Nat) : Prop where
  gap_lt : gap < slots.size
  index_lt : index < slots.size
  stop_lt : v < slots.size
  gap_vacant : L.vacantAt slots gap = true
  stop_vacant : L.vacantAt slots v = true
  /-- The walk has left the gap. -/
  ahead : 0 < distance slots.size gap index
  /-- The walk has not passed the stop. -/
  near : distance slots.size gap index ≤ distance slots.size gap v
  /-- All slots on the way from a home to its occupant are occupied, except the gap. -/
  reaches : ∀ p < slots.size, L.vacantAt slots p = false →
    ∀ j < slots.size, OnWay slots.size (L.home slots.size (L.slotAt slots p)) j p → j ≠ gap →
      L.vacantAt slots j = false
  /-- The gap is not on the way to an occupant that was passed. -/
  settled : ∀ p < slots.size, L.vacantAt slots p = false →
    distance slots.size gap p < distance slots.size gap index →
      ¬ OnWay slots.size (L.home slots.size (L.slotAt slots p)) gap p

namespace GapInvariant

/-- A gap that an occupant can fill is on the way to it. -/
theorem canFillGap_iff (h : GapInvariant L slots gap index v) :
    canFillGap (L.home slots.size (L.slotAt slots index)) gap index = true ↔
      OnWay slots.size (L.home slots.size (L.slotAt slots index)) gap index :=
  LinearProbing.canFillGap_iff (home_lt (Nat.zero_lt_of_lt h.index_lt)) h.gap_lt h.index_lt

/-- An occupied index is not the stop, so the walk can go on. -/
theorem index_ne_stop (h : GapInvariant L slots gap index v)
    (hocc : L.vacantAt slots index = false) : index ≠ v := by
  rintro rfl
  exact absurd (hocc.symm.trans h.stop_vacant) (by decide)

theorem index_ne_gap (h : GapInvariant L slots gap index v) : gap ≠ index := by
  rintro rfl
  exact absurd h.ahead (by simp)

theorem distance_next (h : GapInvariant L slots gap index v)
    (hocc : L.vacantAt slots index = false) :
    distance slots.size gap (nextSlot slots.size index) = distance slots.size gap index + 1 := by
  refine distance_nextSlot_right h.gap_lt h.index_lt fun hback => ?_
  -- to come back to the gap, the walk would have to pass the stop
  have hlt := distance_lt h.gap_lt h.stop_lt
  have hnear := h.near
  have hne : distance slots.size gap index ≠ distance slots.size gap v := fun heq =>
    h.index_ne_stop hocc (distance_inj h.gap_lt h.index_lt h.stop_lt heq)
  have hi := h.index_lt
  rw [nextSlot_eq hi] at hback
  grind [distance]

theorem next_near (h : GapInvariant L slots gap index v) (hocc : L.vacantAt slots index = false) :
    distance slots.size gap (nextSlot slots.size index) ≤ distance slots.size gap v := by
  have hne : distance slots.size gap index ≠ distance slots.size gap v := fun heq =>
    h.index_ne_stop hocc (distance_inj h.gap_lt h.index_lt h.stop_lt heq)
  have hnear := h.near
  rw [h.distance_next hocc]
  omega

/-- An occupant without the gap on its way is passed. -/
theorem stay (h : GapInvariant L slots gap index v) (hocc : L.vacantAt slots index = false)
    (hway : ¬ OnWay slots.size (L.home slots.size (L.slotAt slots index)) gap index) :
    GapInvariant L slots gap (nextSlot slots.size index) v where
  gap_lt := h.gap_lt
  index_lt := nextSlot_lt h.index_lt
  stop_lt := h.stop_lt
  gap_vacant := h.gap_vacant
  stop_vacant := h.stop_vacant
  ahead := by rw [h.distance_next hocc]; omega
  near := h.next_near hocc
  reaches := h.reaches
  settled := by
    intro p hp hpocc hd
    rw [h.distance_next hocc] at hd
    -- the occupant at `index` is the only one that is passed by this step
    rcases Nat.lt_or_eq_of_le (Nat.le_of_lt_succ hd) with hlt | heq
    · exact h.settled p hp hpocc hlt
    · exact distance_inj h.gap_lt hp h.index_lt heq ▸ hway

/-- An occupant with the gap on its way is moved there, and its slot is the new gap. -/
theorem move (hL : L.Lawful) (h : GapInvariant L slots gap index v)
    (hocc : L.vacantAt slots index = false)
    (hway : OnWay slots.size (L.home slots.size (L.slotAt slots index)) gap index) :
    GapInvariant L (L.shift slots index gap) index (nextSlot slots.size index) v := by
  have hne := h.index_ne_gap
  have hstop := h.index_ne_stop hocc
  have hnext := distance_nextSlot_self h.index_lt h.gap_lt hne.symm
  have hstop_gap : gap ≠ v := by
    rintro rfl
    have h1 := h.near
    have h2 := h.ahead
    rw [distance_self] at h1
    omega
  -- a slot other than the old and the new gap holds what it held
  have hold : ∀ j, j ≠ index → j ≠ gap →
      L.slotAt (L.shift slots index gap) j = L.slotAt slots j := fun j h1 h2 =>
    slotAt_shift_ne (Ne.symm h1) (Ne.symm h2)
  have hmoved : L.slotAt (L.shift slots index gap) gap = L.slotAt slots index :=
    slotAt_shift_target h.gap_lt hne.symm
  have hfilled : L.vacantAt (L.shift slots index gap) gap = false := by rwa [vacantAt, hmoved]
  have hleft : L.vacantAt (L.shift slots index gap) index = true := hL.vacantAt_shift_source
  have hkept : ∀ j < slots.size, L.vacantAt slots j = false → j ≠ index →
      L.vacantAt (L.shift slots index gap) j = false := by
    intro j _ hj hji
    by_cases hjg : j = gap
    · rw [hjg, hfilled]
    · rwa [vacantAt, hold j hji hjg]
  refine
    { gap_lt := by simpa using h.index_lt
      index_lt := by simpa using nextSlot_lt h.index_lt
      stop_lt := by simpa using h.stop_lt
      gap_vacant := hleft
      stop_vacant := by rw [vacantAt, hold v hstop.symm hstop_gap.symm]; exact h.stop_vacant
      ahead := by simp [hnext]
      near := ?_
      reaches := ?_
      settled := ?_ }
  · have hfar : distance slots.size index v ≠ 0 := fun hz =>
      hstop ((distance_eq_zero_iff h.index_lt).mp hz)
    simp only [size_shift, hnext]
    omega
  · intro p hp hpocc j hj hway' hji
    simp only [size_shift] at hp hj hway'
    have hpi : p ≠ index := by
      rintro rfl
      exact absurd (hpocc.symm.trans hleft) (by decide)
    by_cases hjg : j = gap
    · rw [hjg, hfilled]
    · by_cases hpg : p = gap
      · subst hpg
        -- what is left of the way of the moved occupant ends at the old gap
        rw [hmoved] at hway'
        exact hkept j hj (h.reaches index h.index_lt hocc j hj (Nat.lt_trans hway' hway) hjg) hji
      · rw [vacantAt, hold p hpi hpg] at hpocc
        rw [hold p hpi hpg] at hway'
        exact hkept j hj (h.reaches p hp hpocc j hj hway' hjg) hji
  · intro p hp hpocc hd
    simp only [size_shift] at hp hd
    obtain rfl := eq_of_distance_lt_nextSlot h.index_lt h.gap_lt hne.symm hd
    exact absurd (hpocc.symm.trans hleft) (by decide)

/-- At the end of the run, the gap is on nobody's way: an occupant behind it would have the vacant slot at
the end on its way too. -/
theorem chained (h : GapInvariant L slots gap index v) (hvac : L.vacantAt slots index = true) :
    L.Chained slots := by
  intro p hp hpocc j hj hway
  by_cases hjg : j = gap
  · exfalso
    subst hjg
    have hhome : L.home slots.size (L.slotAt slots p) < slots.size :=
      home_lt (Nat.zero_lt_of_lt hp)
    generalize hgen : L.home slots.size (L.slotAt slots p) = home at hway hhome
    have hpast : distance slots.size j index ≤ distance slots.size j p := by
      by_contra hlt
      exact h.settled p hp hpocc (by omega) (by rw [hgen]; exact hway)
    have hne : index ≠ p := by
      rintro rfl
      exact absurd (hpocc.symm.trans hvac) (by decide)
    -- the gap is on the way to `p`, and `index` comes after it but before `p`
    have hindex : OnWay slots.size home index p := by
      have hi := h.index_lt
      unfold OnWay at hway ⊢
      grind [distance]
    have := h.reaches p hp hpocc index h.index_lt (by rw [hgen]; exact hindex)
      h.index_ne_gap.symm
    exact absurd (this.symm.trans hvac) (by decide)
  · exact h.reaches p hp hpocc j hj hway hjg

/-- What lies from `v` on is not touched by a move, and stays as far ahead as `v`, since both the old and the
new gap lie before it. -/
theorem shift_beyond (h : GapInvariant L slots gap index v) (hocc : L.vacantAt slots index = false) {j : Nat}
    (hj : j < slots.size) (hfar : distance slots.size gap v ≤ distance slots.size gap j) :
    L.slotAt (L.shift slots index gap) j = L.slotAt slots j ∧
      distance slots.size index v ≤ distance slots.size index j := by
  have hnear := h.near
  have hahead := h.ahead
  have hne := h.index_ne_stop hocc
  have hg := h.gap_lt
  have hi := h.index_lt
  have hv := h.stop_lt
  have hjg : gap ≠ j := by grind [distance]
  have hji : index ≠ j := by grind [distance]
  exact ⟨slotAt_shift_ne hji hjg, by grind [distance]⟩

end GapInvariant

/-- **The loop ends**, at the latest at the vacant slot `v`. -/
theorem GapInvariant.exists_closes (hL : L.Lawful) (h : GapInvariant L slots gap index v) :
    ∃ steps ≤ distance slots.size index v, ∃ result, L.Closes gap index slots steps result := by
  -- either case of a round takes the index one slot nearer to `v`
  generalize hd : distance slots.size index v = d
  induction d generalizing gap index slots with
  | zero =>
      obtain rfl := (distance_eq_zero_iff h.index_lt).mp hd
      exact ⟨0, Nat.le_refl _, slots, .stop h.stop_vacant⟩
  | succ d ih =>
      cases hvac : L.vacantAt slots index with
      | true => exact ⟨0, Nat.zero_le _, slots, .stop hvac⟩
      | false =>
          have hnear := distance_nextSlot_left h.index_lt h.stop_lt (h.index_ne_stop hvac)
          cases hfills : canFillGap (L.home slots.size (L.slotAt slots index)) gap index with
          | true =>
              have hmoved := h.move hL hvac (h.canFillGap_iff.mp hfills)
              obtain ⟨steps, hle, result, hrest⟩ := ih hmoved (by rw [size_shift]; omega)
              exact ⟨steps + 1, Nat.succ_le_succ hle, result, .move hvac hfills hrest⟩
          | false =>
              have hstays := h.stay hvac fun hway => by simp [h.canFillGap_iff.mpr hway] at hfills
              obtain ⟨steps, hle, result, hrest⟩ := ih hstays (by omega)
              exact ⟨steps + 1, Nat.succ_le_succ hle, result, .pass hvac hfills hrest⟩

/-! ### What it leaves -/

/-- What closing a gap leaves: a chained array with the same occupants, unchanged from the vacant slot `v`
on. -/
structure Closed (L : Layout σ) (slots result : Array σ) (gap v : Nat) : Prop where
  size_eq : result.size = slots.size
  chained : L.Chained result
  occupants : (L.occupants result).Perm (L.occupants slots)
  /-- From the vacant slot on, nothing has changed. -/
  frame : ∀ j < slots.size, distance slots.size gap v ≤ distance slots.size gap j →
    L.slotAt result j = L.slotAt slots j

/-- The loop leaves a chained array with the same occupants. -/
theorem Closes.closed (hL : L.Lawful) (h : L.Closes gap index slots steps result)
    (hinv : GapInvariant L slots gap index v) : Closed L slots result gap v := by
  induction h with
  | stop vacant => exact ⟨rfl, hinv.chained vacant, List.Perm.refl _, fun _ _ _ => rfl⟩
  | move occupied fills _ ih =>
      have hmoved := ih (hinv.move hL occupied (hinv.canFillGap_iff.mp fills))
      have hperm := hL.occupants_shift occupied hinv.gap_vacant hinv.gap_lt
      refine ⟨hmoved.size_eq.trans size_shift, hmoved.chained, hmoved.occupants.trans hperm, ?_⟩
      intro j hj hfar
      obtain ⟨hslot, hahead⟩ := hinv.shift_beyond occupied hj hfar
      exact (hmoved.frame j (by rwa [size_shift]) (by rwa [size_shift])).trans hslot
  | pass occupied stays _ ih =>
      exact ih (hinv.stay occupied fun hway => by simp [hinv.canFillGap_iff.mpr hway] at stays)

/-! ### Deletion -/

/-- The walk begins right behind the slot that was vacated. -/
theorem GapInvariant.start (hL : L.Lawful) (hc : L.Chained slots) (hgap : gap < slots.size)
    (hocc : L.vacantAt slots gap = false) (hv : v < slots.size)
    (hvac : L.vacantAt slots v = true) :
    GapInvariant L (L.vacate slots gap) gap (nextSlot slots.size gap) v := by
  have hne : gap ≠ v := by
    rintro rfl
    exact absurd (hocc.symm.trans hvac) (by decide)
  -- from the slot after the gap, the gap is a whole round away, with the vacant slot on the way
  have hnext := distance_nextSlot_self hgap hv hne
  have hleft : L.vacantAt (L.vacate slots gap) gap = true := hL.vacantAt_vacate_self
  refine
    { gap_lt := by simpa using hgap
      index_lt := by simpa using nextSlot_lt hgap
      stop_lt := by simpa using hv
      gap_vacant := hleft
      stop_vacant := by rwa [vacantAt_vacate_ne hne]
      ahead := by simp [hnext]
      near := ?_
      reaches := ?_
      settled := ?_ }
  · have hfar : distance slots.size gap v ≠ 0 := fun hz => hne ((distance_eq_zero_iff hgap).mp hz)
    simp only [size_vacate, hnext]
    omega
  · -- every chain is intact but for the gap
    intro p hp hpocc j hj hway hjg
    simp only [size_vacate] at hp hj hway
    have hpg : gap ≠ p := by
      rintro rfl
      exact absurd (hpocc.symm.trans hleft) (by decide)
    rw [vacantAt_vacate_ne hpg] at hpocc
    rw [slotAt_vacate_ne hpg] at hway
    rw [vacantAt_vacate_ne (Ne.symm hjg)]
    exact hc p hp hpocc j hj hway
  · -- nothing was looked at yet except the gap itself
    intro p hp hpocc hd
    simp only [size_vacate] at hp hd
    obtain rfl := eq_of_distance_lt_nextSlot hgap hv hne hd
    exact absurd (hpocc.symm.trans hleft) (by decide)

/-- The loop behind an emptied slot ends by itself, after fewer rounds than there are slots. -/
theorem erase_closes (hL : L.Lawful) (hc : L.Chained slots) (hocc : L.vacantAt slots gap = false)
    (hv : v < slots.size) (hvac : L.vacantAt slots v = true) :
    ∃ steps < slots.size, L.Closes gap (nextSlot slots.size gap) (L.vacate slots gap) steps
      (L.closeGap (L.vacate slots gap) gap) := by
  have hgap := hL.lt_size hocc
  obtain ⟨steps, hsteps, result, hloop⟩ := (GapInvariant.start hL hc hgap hocc hv hvac).exists_closes hL
  have hfar := distance_lt (nextSlot_lt hgap) hv
  rw [size_vacate] at hsteps
  have hfewer : steps < slots.size := by omega
  refine ⟨steps, hfewer, ?_⟩
  rw [closeGap, size_vacate, hloop.closeGapFrom_eq hfewer]
  exact hloop

/-- **Deletion.** Emptying an occupied slot of a chained array and closing the gap leaves a chained array
with one occupant less, unchanged from any slot `v` that was vacant before. -/
theorem erase_closed (hL : L.Lawful) (hc : L.Chained slots)
    (hocc : L.vacantAt slots gap = false) (hv : v < slots.size)
    (hvac : L.vacantAt slots v = true) :
    Closed L (L.vacate slots gap) (L.closeGap (L.vacate slots gap) gap) gap v := by
  obtain ⟨steps, -, hloop⟩ := erase_closes hL hc hocc hv hvac
  exact hloop.closed hL (GapInvariant.start hL hc (hL.lt_size hocc) hocc hv hvac)

end LinearProbing.Layout
