import LinearProbing.Scan
import LinearProbing.Proofs.Arrangement

/-!
# LinearProbing.Proofs.Scan

**The way of a scan.** A scan looks at the slots `start + o` on the ring, for offsets `o` from the number
of slots down to zero. `EntryLayout.below` lists the entries that are still ahead of it.

Removing an entry moves only entries between it and the next vacant slot. A scan begins below a vacant
slot, its *wall* (`Walled`), which stays vacant; so seen from a slot that the scan has reached, what it has
not reached yet lies behind the wall (`Walled.offset_far`), and no removal touches it
(`Arranged.below_erase`). As a whole, a scan lists all entries (`scanOrder_perm`), in the order of the
slots `downward` from its origin (`scanOrder_eq`).
-/

namespace LinearProbing

/-! ### Offsets -/

/-- The slot at an offset from the start of a scan. -/
def offsetSlot (size start offset : Nat) : Nat := (start + offset) % size

variable {size start stop o g : Nat}

theorem offsetSlot_lt (h : o < size) : offsetSlot size start o < size :=
  Nat.mod_lt _ (Nat.zero_lt_of_lt h)

/-- An offset leads past the end of the ring once at most. -/
theorem offsetSlot_eq (hstart : start ≤ size) (ho : o < size) :
    offsetSlot size start o = if start + o < size then start + o else start + o - size := by
  unfold offsetSlot
  split
  · next h => exact Nat.mod_eq_of_lt h
  · rw [Nat.mod_eq_sub_mod (by omega)]
    exact Nat.mod_eq_of_lt (by omega)

theorem offsetSlot_inj (hstart : start ≤ size) (ho : o < size) (hg : g < size)
    (h : offsetSlot size start o = offsetSlot size start g) : o = g := by
  rw [offsetSlot_eq hstart ho, offsetSlot_eq hstart hg] at h
  split at h <;> split at h <;> omega

theorem distance_offsetSlot (hstart : start < size) (ho : o < size) :
    distance size start (offsetSlot size start o) = o := by
  rw [offsetSlot_eq (Nat.le_of_lt hstart) ho]
  grind [distance]

theorem offsetSlot_distance (hstart : start < size) (hstop : stop < size) :
    offsetSlot size start (distance size start stop) = stop := by
  have hlt := distance_lt hstart hstop
  exact distance_inj hstart (offsetSlot_lt hlt) hstop (distance_offsetSlot hstart hlt)

/-! ### The wall of a scan -/

/-- The vacant slot that a scan does not go across: the one that it begins below, or the last slot of the
array if it begins below the end. -/
structure Walled {σ : Type} (L : Layout σ) (slots : Array σ) (start stop : Nat) : Prop where
  stop_lt : stop < slots.size
  vacant : L.vacantAt slots stop = true
  /-- The scan begins below it. -/
  begins : start = stop ∨ (start = slots.size ∧ stop + 1 = slots.size)

namespace Walled

variable {σ : Type} {L : Layout σ} {slots : Array σ}

theorem start_le (h : Walled L slots start stop) : start ≤ slots.size := by
  have hlt := h.stop_lt
  rcases h.begins with hb | hb <;> omega

/-- Going up from a slot that a scan has reached, the wall comes before all that it has not reached. -/
theorem offset_far (h : Walled L slots start stop) (hg : g < slots.size) (ho : o < g)
    (hne : offsetSlot slots.size start g ≠ stop) :
    distance slots.size (offsetSlot slots.size start g) stop ≤
      distance slots.size (offsetSlot slots.size start g) (offsetSlot slots.size start o) := by
  have hstart := h.start_le
  have hstop := h.stop_lt
  rw [offsetSlot_eq hstart hg] at hne ⊢
  rw [offsetSlot_eq hstart (by omega)]
  rcases h.begins with hb | ⟨hb, hend⟩ <;> grind [distance]

/-- An occupied slot is not the wall. -/
theorem ne_of_occupied (h : Walled L slots start stop) {i : Nat}
    (hocc : L.vacantAt slots i = false) : i ≠ stop := by
  rintro rfl
  exact absurd (hocc.symm.trans h.vacant) (by decide)

/-- A wall stays one while it stays vacant. -/
theorem congr (h : Walled L slots start stop) {result : Array σ} (hsize : result.size = slots.size)
    (hstop : L.slotAt result stop = L.slotAt slots stop) : Walled L result start stop where
  stop_lt := hsize ▸ h.stop_lt
  vacant := by rw [Layout.vacantAt, hstop]; exact h.vacant
  begins := hsize ▸ h.begins

end Walled

/-! ### What is ahead of a scan -/

namespace EntryLayout

variable {σ κ ν : Type} {E : EntryLayout σ κ ν} {slots : Array σ}

/-- The entries that a scan has not reached, in the order in which it produces them. -/
def below (E : EntryLayout σ κ ν) (slots : Array σ) (start : Nat) : (ahead : Nat) → List (κ × ν)
  | 0 => []
  | ahead + 1 =>
    (E.entryAt? slots (offsetSlot slots.size start ahead)).toList ++ below E slots start ahead

/-- Changes behind a scan do not change what is ahead of it. -/
theorem below_congr {result : Array σ} (hsize : result.size = slots.size) {ahead : Nat}
    (h : ∀ o < ahead, E.entryAt? result (offsetSlot slots.size start o) =
      E.entryAt? slots (offsetSlot slots.size start o)) :
    E.below result start ahead = E.below slots start ahead := by
  induction ahead with
  | zero => rfl
  | succ ahead ih =>
      rw [below, below, hsize, h ahead (Nat.lt_succ_self _), ih fun o ho => h o (Nat.lt_succ_of_lt ho)]

/-- What the search for the next entry finds. -/
theorem search_cases (ahead : Nat) :
    (Scan.search E.layout slots start ahead = none ∧ E.below slots start ahead = []) ∨
      ∃ o e, Scan.search E.layout slots start ahead = some (offsetSlot slots.size start o, o) ∧
        o < ahead ∧ E.entryAt? slots (offsetSlot slots.size start o) = some e ∧
          E.below slots start ahead = e :: E.below slots start o := by
  -- the search goes down from the slots ahead, and `below` lists the entries in the same order
  induction ahead with
  | zero => exact Or.inl ⟨rfl, rfl⟩
  | succ ahead ih =>
      rw [Scan.search, below, show (start + ahead) % slots.size = offsetSlot slots.size start ahead
        from rfl]
      cases hentry : E.entryAt? slots (offsetSlot slots.size start ahead) with
      | none =>
          rw [if_pos (vacantAt_eq_true_iff.mpr hentry)]
          rcases ih with hnone | ⟨o, e, hsearch, ho, he, hbelow⟩
          · exact Or.inl hnone
          · exact Or.inr ⟨o, e, hsearch, Nat.lt_succ_of_lt ho, he, hbelow⟩
      | some e =>
          rw [if_neg (by rw [vacantAt_of_entryAt? hentry]; decide)]
          exact Or.inr ⟨ahead, e, rfl, Nat.lt_succ_self _, hentry, rfl⟩

/-! ### Changes while a scan is under way -/

variable [BEq κ] {hash : κ → UInt64} {storable : κ → ν → Prop} {e : κ × ν}

/-- **Removing an entry behind a scan** leaves its wall and all that is ahead of it. -/
theorem Arranged.below_erase (h : E.Arranged hash slots) (hE : E.Lawful hash storable)
    (hw : Walled E.layout slots start stop) (hg : g < slots.size)
    (he : E.entryAt? slots (offsetSlot slots.size start g) = some e) :
    let result := E.layout.closeGap (E.layout.vacate slots (offsetSlot slots.size start g))
      (offsetSlot slots.size start g)
    result.size = slots.size ∧ Walled E.layout result start stop ∧
      ∀ ahead ≤ g, E.below result start ahead = E.below slots start ahead := by
  intro result
  have hocc := vacantAt_of_entryAt? he
  have hne := hw.ne_of_occupied hocc
  have hclosed := Layout.erase_closed hE.layout h.chained hocc hw.stop_lt hw.vacant
  have hsize : result.size = slots.size := hclosed.size_eq.trans Layout.size_vacate
  -- closing the gap changes nothing from the wall on, seen from the gap
  have hframe : ∀ j < slots.size, distance slots.size (offsetSlot slots.size start g) stop ≤
      distance slots.size (offsetSlot slots.size start g) j →
        E.layout.slotAt result j = E.layout.slotAt slots j := by
    intro j hj hfar
    have hjg : offsetSlot slots.size start g ≠ j := by
      rintro rfl
      rw [distance_self, Nat.le_zero] at hfar
      exact hne ((distance_eq_zero_iff (offsetSlot_lt hg)).mp hfar)
    rw [hclosed.frame j (by simpa using hj) (by simpa using hfar), Layout.slotAt_vacate_ne hjg]
  refine ⟨hsize, hw.congr hsize (hframe stop hw.stop_lt (Nat.le_refl _)), fun ahead hle => ?_⟩
  refine below_congr hsize fun o ho => congrArg E.entryIn? (hframe _ (offsetSlot_lt (by omega)) ?_)
  exact hw.offset_far hg (Nat.lt_of_lt_of_le ho hle) hne

omit [BEq κ] in
/-- Overwriting an entry behind a scan leaves its wall and all that is ahead of it. -/
theorem below_setIfInBounds (hw : Walled E.layout slots start stop) (hg : g < slots.size)
    (he : E.entryAt? slots (offsetSlot slots.size start g) = some e) (s : σ) :
    let result := slots.setIfInBounds (offsetSlot slots.size start g) s
    Walled E.layout result start stop ∧
      ∀ ahead ≤ g, E.below result start ahead = E.below slots start ahead := by
  intro result
  have hsize : result.size = slots.size := Array.size_setIfInBounds
  have hne := hw.ne_of_occupied (vacantAt_of_entryAt? he)
  refine ⟨hw.congr hsize (Layout.slotAt_setIfInBounds_ne hne), fun ahead hle => ?_⟩
  refine below_congr hsize fun o ho => congrArg E.entryIn? (Layout.slotAt_setIfInBounds_ne fun heq => ?_)
  have := offsetSlot_inj hw.start_le hg (by omega) heq
  omega

end EntryLayout

/-! ### The whole way of a scan -/

/-- The slots of a ring downwards: those below the origin first, then those from the end of the array down
to the origin. -/
def downward (size origin : Nat) : List Nat :=
  (List.range origin).reverse ++ (List.range' origin (size - origin)).reverse

/-- A scan begins at the end of the array if the last slot is vacant, else at the lowest vacant slot. -/
def IsOrigin {σ : Type} (L : Layout σ) (slots : Array σ) (origin : Nat) : Prop :=
  (L.vacantAt slots (slots.size - 1) = true ∧ origin = slots.size) ∨
    (L.vacantAt slots (slots.size - 1) = false ∧ L.vacantAt slots origin = true ∧
      ∀ i < origin, L.vacantAt slots i = false)

theorem isOrigin_origin {σ : Type} {L : Layout σ} {slots : Array σ}
    (hv : ∃ v < slots.size, L.vacantAt slots v = true) :
    IsOrigin L slots (Scan.origin L slots) := by
  unfold Scan.origin
  -- the last slot is asked first; the lowest vacant slot only matters when an entry may wrap around
  by_cases hlast : L.vacantAt slots (slots.size - 1) = true
  · rw [if_pos hlast]
    exact Or.inl ⟨hlast, rfl⟩
  rw [if_neg hlast]
  rw [Bool.not_eq_true] at hlast
  obtain ⟨v, hv, hvac⟩ := hv
  rw [Layout.vacantAt, Layout.slotAt_eq_getElem hv] at hvac
  cases hfind : slots.findIdx? L.vacant with
  | none =>
      have := Array.findIdx?_eq_none_iff.mp hfind slots[v] (Array.getElem_mem hv)
      exact absurd (hvac.symm.trans this) (by decide)
  | some i =>
      obtain ⟨hi, hvacant, hfirst⟩ := Array.findIdx?_eq_some_iff_getElem.mp hfind
      refine Or.inr ⟨hlast, ?_, fun j hj => ?_⟩
      · rwa [Option.getD_some, Layout.vacantAt, Layout.slotAt_eq_getElem hi]
      · have := hfirst j hj
        rwa [Bool.not_eq_true, ← Layout.slotAt_eq_getElem (L := L)] at this

/-- With a vacant slot in the array, a scan has a wall. -/
theorem IsOrigin.exists_walled {σ : Type} {L : Layout σ} {slots : Array σ} {origin : Nat}
    (h : IsOrigin L slots origin) (hv : ∃ v < slots.size, L.vacantAt slots v = true) :
    ∃ stop, Walled L slots origin stop := by
  obtain ⟨v, hv, hvac⟩ := hv
  rcases h with ⟨hlast, rfl⟩ | ⟨-, hvacant, hfirst⟩
  · exact ⟨slots.size - 1, by omega, hlast, Or.inr ⟨rfl, by omega⟩⟩
  · refine ⟨origin, Nat.lt_of_le_of_lt (Nat.le_of_not_lt fun hlt => ?_) hv, hvacant, Or.inl rfl⟩
    exact absurd (hvac.symm.trans (hfirst v hlt)) (by decide)

theorem downward_perm {origin : Nat} (h : origin ≤ size) :
    (downward size origin).Perm (List.range size) := by
  have hrange : List.range size = List.range origin ++ List.range' origin (size - origin) := by
    have hsplit := List.range'_append_1 (s := 0) (m := origin) (n := size - origin)
    rw [Nat.zero_add, Nat.add_sub_cancel' h] at hsplit
    rw [List.range_eq_range', List.range_eq_range', hsplit]
  rw [downward, hrange]
  exact (List.reverse_perm _).append (List.reverse_perm _)

example : downward 8 3 = [2, 1, 0, 7, 6, 5, 4, 3] := by decide

theorem map_offsetSlot_range (h : start ≤ size) :
    ((List.range size).map (offsetSlot size start)).reverse = downward size start := by
  -- the offsets before the wrap-around are the slots from the start on, those after it the slots below the
  -- start
  have hrange : List.range size =
      List.range (size - start) ++ (List.range start).map (size - start + ·) := by
    rw [← List.range_add]
    congr 1
    omega
  have hlow : (List.range (size - start)).map (offsetSlot size start) =
      List.range' start (size - start) := by
    rw [List.range'_eq_map_range]
    refine List.map_congr_left fun o ho => ?_
    have := List.mem_range.mp ho
    exact Nat.mod_eq_of_lt (by omega)
  have hhigh : (List.range start).map (offsetSlot size start ∘ (size - start + ·)) =
      List.range start := by
    refine (List.map_congr_left fun o ho => ?_).trans (List.map_id _)
    have := List.mem_range.mp ho
    rw [Function.comp_apply, offsetSlot_eq h (by omega), if_neg (by omega), id]
    omega
  rw [hrange, List.map_append, List.map_map, hlow, hhigh, List.reverse_append, downward]

namespace EntryLayout

variable {σ κ ν : Type} {E : EntryLayout σ κ ν} {slots : Array σ}

theorem below_eq_filterMap (ahead : Nat) : E.below slots start ahead =
    ((List.range ahead).map (offsetSlot slots.size start)).reverse.filterMap (E.entryAt? slots) := by
  induction ahead with
  | zero => rfl
  | succ ahead ih =>
      rw [below, ih, List.range_succ, List.map_append, List.reverse_append]
      cases h : E.entryAt? slots (offsetSlot slots.size start ahead) <;> simp [h]

/-- The entries in the order in which a whole scan produces them. -/
def scanOrder (E : EntryLayout σ κ ν) (slots : Array σ) : List (κ × ν) :=
  E.below slots (Scan.origin E.layout slots) slots.size

/-- **A whole scan goes downwards** from its origin. -/
theorem scanOrder_eq (hv : ∃ v < slots.size, E.layout.vacantAt slots v = true) :
    IsOrigin E.layout slots (Scan.origin E.layout slots) ∧
      E.scanOrder slots = (downward slots.size (Scan.origin E.layout slots)).filterMap
        (E.entryAt? slots) := by
  have horigin := isOrigin_origin hv
  obtain ⟨_, hw⟩ := horigin.exists_walled hv
  refine ⟨horigin, ?_⟩
  rw [scanOrder, below_eq_filterMap, map_offsetSlot_range hw.start_le]

/-- A whole scan lists all entries. -/
theorem scanOrder_perm (hv : ∃ v < slots.size, E.layout.vacantAt slots v = true) :
    (E.scanOrder slots).Perm (E.entries slots) := by
  have hslots : slots.toList = (List.range slots.size).map (E.layout.slotAt slots) := by
    refine List.ext_getElem (by simp) fun i hi _ => ?_
    rw [List.getElem_map, List.getElem_range, Array.getElem_toList,
      Layout.slotAt_eq_getElem (by simpa using hi)]
  have hentries : E.entries slots = (List.range slots.size).filterMap (E.entryAt? slots) := by
    rw [entries, hslots, List.filterMap_map]
    rfl
  obtain ⟨_, hw⟩ := (isOrigin_origin hv).exists_walled hv
  rw [(scanOrder_eq hv).2, hentries]
  exact (downward_perm hw.start_le).filterMap _

end EntryLayout

end LinearProbing
