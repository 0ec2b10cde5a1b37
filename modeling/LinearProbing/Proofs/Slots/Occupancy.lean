import LinearProbing.Proofs.Slots.Chain
import Mathlib.Data.Finset.Card
import Mathlib.Data.Finset.Max

/-!
# LinearProbing.Proofs.Slots.Occupancy

**Which slots are occupied depends on the homes alone.** The occupants of a chained array may sit in
each other's places, as those that came first are nearer to their homes; but how they came does not
change which slots are taken (`Chained.vacantAt_eq`).

The proof counts, on an arc of the ring that ends at a slot, the slots and the occupants that have their
homes there. Where a run of occupied slots ends at `index`, its slots hold occupants from the run alone,
for the slot before it is vacant; so there are no fewer of these than slots (`Chained.length_le_settlers`).
Where `index` is vacant, an occupant from the arc sits in the arc before it, as nothing is reached across
a vacant slot; so there are fewer (`Chained.settlers_lt_length`).
-/

namespace LinearProbing.Layout

variable {σ σ' : Type} {L : Layout σ} {L' : Layout σ'} {slots : Array σ} {slots' : Array σ'}
variable {index length : Nat}

/-- The slots on the arc of so many slots that ends at `index`. -/
def arc (size index length : Nat) : Finset Nat :=
  (Finset.range size).filter fun p => distance size p index < length

/-- The occupied slots whose occupants have their homes on an arc. -/
def settlers (L : Layout σ) (slots : Array σ) (index length : Nat) : Finset Nat :=
  (Finset.range slots.size).filter fun p => L.vacantAt slots p = false ∧
    distance slots.size (L.home slots.size (L.slotAt slots p)) index < length

theorem mem_arc {size p : Nat} : p ∈ arc size index length ↔ p < size ∧ distance size p index < length := by
  rw [arc, Finset.mem_filter, Finset.mem_range]

theorem mem_settlers {p : Nat} : p ∈ L.settlers slots index length ↔
    p < slots.size ∧ L.vacantAt slots p = false ∧
      distance slots.size (L.home slots.size (L.slotAt slots p)) index < length := by
  rw [settlers, Finset.mem_filter, Finset.mem_range]

/-- The slots of an array, read one after the other. -/
theorem map_slotAt_range : (List.range slots.size).map (L.slotAt slots) = slots.toList := by
  refine List.ext_getElem (by simp) fun i hi _ => ?_
  have hlt : i < slots.size := by simpa using hi
  simp [slotAt_eq_getElem hlt]

/-- Occupied slots are counted like occupants. -/
theorem card_filter_occupied (P : σ → Prop) [DecidablePred P] :
    ((Finset.range slots.size).filter fun p => L.vacantAt slots p = false ∧ P (L.slotAt slots p)).card =
      (L.occupants slots).countP (P ·) := by
  have hcount : (L.occupants slots).countP (P ·) =
      (List.range slots.size).countP fun p => P (L.slotAt slots p) && ! L.vacantAt slots p := by
    rw [occupants, List.countP_filter, ← map_slotAt_range (L := L), List.countP_map]
    rfl
  rw [hcount, List.countP_eq_length_filter, Finset.card_def, Finset.filter_val, Finset.range_val,
    Multiset.range, Multiset.filter_coe, Multiset.coe_card]
  congr 2
  funext p
  simp [and_comm]

/-- How many occupants come from an arc can be read off their hashes. -/
theorem card_settlers : (L.settlers slots index length).card =
    ((L.occupants slots).map L.hash).countP fun hash =>
      distance slots.size (homeSlot hash slots.size) index < length := by
  rw [List.countP_map]
  exact card_filter_occupied fun s => distance slots.size (L.home slots.size s) index < length

/-- From an arc that ends at a vacant slot, fewer occupants come than it has slots. -/
theorem Chained.settlers_lt_length (hc : L.Chained slots) (hindex : index < slots.size)
    (hvac : L.vacantAt slots index = true) (hlength : 0 < length) :
    (L.settlers slots index length).card < (arc slots.size index length).card := by
  refine Finset.card_lt_card ((Finset.ssubset_iff_of_subset fun p hp => ?_).mpr ⟨index, ?_, fun hp => ?_⟩)
  · obtain ⟨hlt, hocc, hhome⟩ := mem_settlers.mp hp
    have hh : L.home slots.size (L.slotAt slots p) < slots.size := home_lt (Nat.zero_lt_of_lt hlt)
    -- the vacant slot is not on the way from the home to the occupant
    have hway : ¬ OnWay slots.size (L.home slots.size (L.slotAt slots p)) index p := fun hway =>
      absurd ((hc p hlt hocc index hindex hway).symm.trans hvac) (by decide)
    refine mem_arc.mpr ⟨hlt, ?_⟩
    unfold OnWay at hway
    grind [distance]
  · exact mem_arc.mpr ⟨hindex, by rwa [distance_self]⟩
  · exact absurd ((mem_settlers.mp hp).2.1.symm.trans hvac) (by decide)

/-- On the arc from behind a vacant slot, if all of it is occupied, no fewer occupants have their homes
than it has slots. -/
theorem Chained.length_le_settlers (hc : L.Chained slots) {v : Nat}
    (hv : v < slots.size) (hvac : L.vacantAt slots v = true)
    (hrun : ∀ p < slots.size, distance slots.size p index < distance slots.size v index →
      L.vacantAt slots p = false) :
    (arc slots.size index (distance slots.size v index)).card ≤
      (L.settlers slots index (distance slots.size v index)).card := by
  refine Finset.card_le_card fun p hp => ?_
  obtain ⟨hlt, hnear⟩ := mem_arc.mp hp
  have hocc := hrun p hlt hnear
  have hh : L.home slots.size (L.slotAt slots p) < slots.size := home_lt (Nat.zero_lt_of_lt hlt)
  refine mem_settlers.mpr ⟨hlt, hocc, ?_⟩
  -- from a home outside the arc, the walk to the occupant would come by the vacant slot
  by_contra hfar
  have hway : OnWay slots.size (L.home slots.size (L.slotAt slots p)) v p := by
    unfold OnWay
    grind [distance]
  exact absurd ((hc p hlt hocc v hv hway).symm.trans hvac) (by decide)

/-- Before an occupied slot, there is a nearest vacant one, if there is any. -/
theorem exists_nearest_vacantAt (h : ∃ v < slots.size, L.vacantAt slots v = true) (index : Nat) :
    ∃ v < slots.size, L.vacantAt slots v = true ∧ ∀ p < slots.size,
      distance slots.size p index < distance slots.size v index → L.vacantAt slots p = false := by
  obtain ⟨w, hw, hwvac⟩ := h
  obtain ⟨v, hv, hleast⟩ := Finset.exists_min_image
    ((Finset.range slots.size).filter fun p => L.vacantAt slots p = true)
    (fun p => distance slots.size p index) ⟨w, Finset.mem_filter.mpr ⟨Finset.mem_range.mpr hw, hwvac⟩⟩
  rw [Finset.mem_filter, Finset.mem_range] at hv
  refine ⟨v, hv.1, hv.2, fun p hp hnear => ?_⟩
  by_contra hocc
  have := hleast p (Finset.mem_filter.mpr ⟨Finset.mem_range.mpr hp, by simpa using hocc⟩)
  omega

theorem Chained.vacantAt_of_homes (hc : L.Chained slots) (hc' : L'.Chained slots')
    (hsize : slots.size = slots'.size)
    (hhashes : ((L.occupants slots).map L.hash).Perm ((L'.occupants slots').map L'.hash))
    (hindex : index < slots.size) (hvac' : L'.vacantAt slots' index = true) :
    L.vacantAt slots index = true := by
  by_contra hocc
  rw [Bool.not_eq_true] at hocc
  have hindex' : index < slots'.size := hsize ▸ hindex
  -- there are as many vacant slots here as there, so there is one at least
  have hroom : ∃ v < slots.size, L.vacantAt slots v = true := by
    refine exists_vacantAt ?_
    have hfewer : (L'.occupants slots').length < slots'.size := by
      have hcard := @card_filter_occupied _ L' slots' fun _ => True
      simp only [and_true, decide_true, List.countP_true] at hcard
      rw [← hcard]
      refine (Finset.card_lt_card ?_).trans_eq (Finset.card_range _)
      refine (Finset.ssubset_iff_of_subset (Finset.filter_subset _ _)).mpr
        ⟨index, Finset.mem_range.mpr hindex', fun hmem => ?_⟩
      exact absurd ((Finset.mem_filter.mp hmem).2.symm.trans hvac') (by decide)
    have hlength := hhashes.length_eq
    rw [List.length_map, List.length_map] at hlength
    omega
  obtain ⟨v, hv, hvac, hrun⟩ := exists_nearest_vacantAt hroom index
  have hne : v ≠ index := by
    rintro rfl
    exact absurd (hocc.symm.trans hvac) (by decide)
  have hpos : 0 < distance slots.size v index := Nat.pos_of_ne_zero fun hzero =>
    hne ((distance_eq_zero_iff hv).mp hzero)
  have hmany := hc.length_le_settlers hv hvac hrun
  have hfew := hc'.settlers_lt_length hindex' hvac' (hsize ▸ hpos)
  have hsame : (L.settlers slots index (distance slots.size v index)).card =
      (L'.settlers slots' index (distance slots'.size v index)).card := by
    rw [card_settlers, card_settlers, hsize]
    exact hhashes.countP_eq _
  rw [hsame, hsize] at hmany
  omega

/-- **Two chained arrays of one size whose occupants have the same hashes have the same slots
occupied**, wherever the single occupants sit. -/
theorem Chained.vacantAt_eq (hc : L.Chained slots) (hc' : L'.Chained slots')
    (hsize : slots.size = slots'.size)
    (hhashes : ((L.occupants slots).map L.hash).Perm ((L'.occupants slots').map L'.hash))
    (hindex : index < slots.size) : L.vacantAt slots index = L'.vacantAt slots' index := by
  rw [Bool.eq_iff_iff]
  exact ⟨hc'.vacantAt_of_homes hc hsize.symm hhashes.symm (hsize ▸ hindex),
    hc.vacantAt_of_homes hc' hsize hhashes hindex⟩

end LinearProbing.Layout
