import LinearProbing.Proofs.Slots.Chain

/-!
# LinearProbing.Proofs.Slots.Rehash

**Moving to another number of slots.** `Layout.rehash` puts the occupants one after the other into the
first vacant slots from their new homes, without comparing keys. The new array is chained whatever the
old one was, and has the same occupants, if it has room for one more than all of them
(`rehash_rebuilt`): a vacant slot is then left for every search on the way.
-/

namespace LinearProbing.Layout

variable {σ : Type} {L : Layout σ} {slots : Array σ}

/-- What is left after the occupants of a list of slots were put into an array. -/
structure Refilled (L : Layout σ) (slots : Array σ) (added : List σ) (result : Array σ) : Prop where
  size_eq : result.size = slots.size
  chained : L.Chained result
  /-- The occupants of the list have joined the others. -/
  occupants : (L.occupants result).Perm (added.filter (! L.vacant ·) ++ L.occupants slots)
  /-- The others have not moved. -/
  kept : ∀ i, L.vacantAt slots i = false → L.slotAt result i = L.slotAt slots i

/-- The place that an occupant is put into, with room left for the others. -/
structure Placed (L : Layout σ) (slots : Array σ) (s : σ) (rest : List σ) (target : Nat) : Prop where
  /-- It is the one found from the home of the occupant. -/
  firstVacant?_eq : L.firstVacant? slots (L.home slots.size s) = some target
  lt : target < slots.size
  vacant : L.vacantAt slots target = true
  /-- The occupant is reached there from its home. -/
  chained : L.Chained (slots.setIfInBounds target s)
  /-- The others still fit. -/
  room : (rest.filter (! L.vacant ·)).length + (L.occupants (slots.setIfInBounds target s)).length <
    (slots.setIfInBounds target s).size

theorem exists_placed {s : σ} {rest : List σ} (hc : L.Chained slots) (hs : L.vacant s = false)
    (hroom : ((s :: rest).filter (! L.vacant ·)).length + (L.occupants slots).length < slots.size) :
    ∃ target, Placed L slots s rest target := by
  rw [List.filter_cons_of_pos (by simp [hs]), List.length_cons] at hroom
  have hpos : 0 < slots.size := Nat.zero_lt_of_lt hroom
  have hvac : ∃ v < slots.size, L.vacantAt slots v = true := exists_vacantAt (by omega)
  obtain ⟨target, htarget, hsearch⟩ := firstVacant?_spec hvac (home_lt (s := s) hpos)
  have hfilled := hc.fill hs hsearch
  cases hsearch with
  | vacant hlt hfree _ =>
      refine ⟨target, htarget, hlt, hfree, hfilled, ?_⟩
      rw [(occupants_fill hlt hfree hs).length_eq, List.length_cons, Array.size_setIfInBounds]
      omega

theorem refill_refilled (tracked : Nat) (added : List σ) (index seen : Nat) (hc : L.Chained slots)
    (hroom : (added.filter (! L.vacant ·)).length + (L.occupants slots).length < slots.size) :
    Refilled L slots added (L.refill tracked index added (slots, seen)).1 := by
  induction added generalizing index seen slots with
  | nil => exact ⟨rfl, hc, List.Perm.refl _, fun _ _ => rfl⟩
  | cons s rest ih =>
      rw [refill]
      by_cases hs : L.vacant s = true
      · rw [if_pos hs]
        have hskip : (s :: rest).filter (! L.vacant ·) = rest.filter (! L.vacant ·) :=
          List.filter_cons_of_neg (by simp [hs])
        rw [hskip] at hroom
        obtain ⟨hsize, hchained, hperm, hkept⟩ := ih (index + 1) seen hc hroom
        exact ⟨hsize, hchained, hskip ▸ hperm, hkept⟩
      rw [if_neg hs]
      rw [Bool.not_eq_true] at hs
      obtain ⟨target, hplaced⟩ := exists_placed hc hs hroom
      rw [hplaced.firstVacant?_eq]
      have hadd := occupants_fill hplaced.lt hplaced.vacant hs
      obtain ⟨hsize, hchained, hperm, hkept⟩ :=
        ih (index + 1) (if index = tracked then target else seen) hplaced.chained hplaced.room
      refine ⟨by rw [hsize, Array.size_setIfInBounds], hchained, ?_, ?_⟩
      · rw [List.filter_cons_of_pos (by simp [hs])]
        exact hperm.trans ((hadd.append_left _).trans List.perm_middle)
      · intro i hocc
        -- a slot that was occupied before is not the one that is filled
        have hne : target ≠ i := by
          rintro rfl
          exact absurd (hocc.symm.trans hplaced.vacant) (by decide)
        rw [hkept i (by rwa [vacantAt_setIfInBounds_ne hne]), slotAt_setIfInBounds_ne hne]

/-! ### The tracked slot -/

/-- Once the tracked slot is passed, its new place is settled. -/
theorem refill_passed {tracked index : Nat} (added : List σ) (moved : Array σ × Nat)
    (h : tracked < index) : (L.refill tracked index added moved).2 = moved.2 := by
  induction added generalizing index moved with
  | nil => rfl
  | cons s rest ih =>
      obtain ⟨slots, seen⟩ := moved
      have hnext : tracked < index + 1 := Nat.lt_succ_of_lt h
      rw [refill]
      split
      · exact ih _ hnext
      · split
        · exact ih _ hnext
        · rw [if_neg (Nat.ne_of_gt h)]
          exact ih _ hnext

theorem refill_tracked {s : σ} (hs : L.vacant s = false) (added : List σ) (n index seen : Nat)
    (hc : L.Chained slots)
    (hroom : (added.filter (! L.vacant ·)).length + (L.occupants slots).length < slots.size)
    (hx : added[n]? = some s) :
    L.slotAt (L.refill (index + n) index added (slots, seen)).1
      (L.refill (index + n) index added (slots, seen)).2 = s := by
  induction added generalizing n index seen slots with
  | nil => simp at hx
  | cons x rest ih =>
      rw [refill]
      by_cases hvac : L.vacant x = true
      · rw [if_pos hvac]
        rw [List.filter_cons_of_neg (by simp [hvac])] at hroom
        cases n with
        | zero =>
            obtain rfl := Option.some.inj hx
            exact absurd (hs.symm.trans hvac) (by decide)
        | succ n =>
            rw [← Nat.succ_add_eq_add_succ]
            exact ih n (index + 1) seen hc hroom hx
      rw [if_neg hvac]
      rw [Bool.not_eq_true] at hvac
      obtain ⟨target, hplaced⟩ := exists_placed hc hvac hroom
      rw [hplaced.firstVacant?_eq]
      dsimp only
      cases n with
      | zero =>
          -- the tracked occupant is put into `target`, and stays there
          obtain rfl := Option.some.inj hx
          simp only [Nat.add_zero, if_true]
          rw [refill_passed rest _ (Nat.lt_succ_self index)]
          have hrest := refill_refilled index rest (index + 1) target hplaced.chained hplaced.room
          rw [hrest.kept target (by rw [vacantAt_setIfInBounds_self hplaced.lt, hs]),
            slotAt_setIfInBounds_self hplaced.lt]
      | succ n =>
          rw [← Nat.succ_add_eq_add_succ]
          exact ih n (index + 1) _ hplaced.chained hplaced.room hx

/-- **Rehashing** into more slots than there are occupants gives a chained array with the same
occupants. -/
theorem rehash_rebuilt (hL : L.Lawful) {capacity tracked : Nat}
    (hroom : (L.occupants slots).length < capacity) :
    (L.rehash slots capacity tracked).1.size = capacity ∧
      L.Chained (L.rehash slots capacity tracked).1 ∧
        (L.occupants (L.rehash slots capacity tracked).1).Perm (L.occupants slots) := by
  have h := refill_refilled tracked slots.toList 0 tracked (hL.chained_replicate capacity) (by
    rw [hL.occupants_replicate]
    simpa [occupants] using hroom)
  refine ⟨h.size_eq.trans Array.size_replicate, h.chained, ?_⟩
  have hperm := h.occupants
  rwa [hL.occupants_replicate, List.append_nil] at hperm

/-- The second component of the result is the new slot of the tracked occupant. -/
theorem rehash_tracked (hL : L.Lawful) {capacity tracked : Nat}
    (hroom : (L.occupants slots).length < capacity) (hocc : L.vacantAt slots tracked = false) :
    L.slotAt (L.rehash slots capacity tracked).1 (L.rehash slots capacity tracked).2 =
      L.slotAt slots tracked := by
  have hi := hL.lt_size hocc
  have h := refill_tracked (L := L) hocc slots.toList tracked 0 tracked
    (hL.chained_replicate capacity)
    (by rw [hL.occupants_replicate]; simpa [occupants] using hroom)
    (by simp [slotAt, hi])
  rwa [Nat.zero_add] at h

end LinearProbing.Layout
