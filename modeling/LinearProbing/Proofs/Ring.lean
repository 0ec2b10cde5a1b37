import LinearProbing.Slots

/-!
# LinearProbing.Proofs.Ring

**Distances on the ring of slots.** `distance size a b` is the number of steps forward from slot `a` to
slot `b`, and `OnWay size home slot index` says that a walk from `home` meets `slot` before `index`.
The interval test `canFillGap` decides just that (`canFillGap_iff`), so proofs about deletion speak of
distances and never of the two comparisons.
-/

namespace LinearProbing

/-- The number of steps forward from slot `a` to slot `b` on a ring of `size` slots. -/
def distance (size a b : Nat) : Nat := if a ≤ b then b - a else b + size - a

/-- A walk from `home` meets `slot` before it reaches `index`. -/
def OnWay (size home slot index : Nat) : Prop := distance size home slot < distance size home index

variable {size a b c : Nat}

@[simp] theorem distance_self : distance size a a = 0 := by simp [distance]

theorem distance_lt (ha : a < size) (hb : b < size) : distance size a b < size := by
  grind [distance]

theorem distance_eq_zero_iff (ha : a < size) : distance size a b = 0 ↔ a = b := by
  grind [distance]

theorem distance_inj (ha : a < size) (hb : b < size) (hc : c < size)
    (h : distance size a b = distance size a c) : b = c := by
  grind [distance]

/-! ### The next slot -/

theorem nextSlot_eq (ha : a < size) : nextSlot size a = if a + 1 = size then 0 else a + 1 := by
  unfold nextSlot
  split
  · next h => rw [h, Nat.mod_self]
  · exact Nat.mod_eq_of_lt (by omega)

theorem nextSlot_lt (ha : a < size) : nextSlot size a < size :=
  Nat.mod_lt _ (Nat.zero_lt_of_lt ha)

/-- A step towards `b` brings it nearer by one. -/
theorem distance_nextSlot_left (ha : a < size) (hb : b < size) (h : a ≠ b) :
    distance size (nextSlot size a) b + 1 = distance size a b := by
  rw [nextSlot_eq ha]
  grind [distance]

/-- A step away from `a` adds one, unless it leads back to `a`. -/
theorem distance_nextSlot_right (ha : a < size) (hb : b < size) (h : nextSlot size b ≠ a) :
    distance size a (nextSlot size b) = distance size a b + 1 := by
  rw [nextSlot_eq hb] at h ⊢
  grind [distance]

/-- With another slot on the ring, the next one is a step away. -/
theorem distance_nextSlot_self (ha : a < size) (hb : b < size) (h : a ≠ b) :
    distance size a (nextSlot size a) = 1 := by
  rw [nextSlot_eq ha]
  grind [distance]

/-- Nothing lies between a slot and the next one. -/
theorem eq_of_distance_lt_nextSlot (ha : a < size) (hb : b < size) (h : a ≠ b)
    (hc : distance size a c < distance size a (nextSlot size a)) : a = c := by
  rw [distance_nextSlot_self ha hb h, Nat.lt_one_iff] at hc
  exact (distance_eq_zero_iff ha).mp hc

/-! ### The interval test -/

/-- The test by two comparisons is the walk from the home: it meets the gap before the index. -/
theorem canFillGap_iff {home gap index : Nat} (hh : home < size) (hg : gap < size)
    (hi : index < size) : canFillGap home gap index = true ↔ OnWay size home gap index := by
  unfold canFillGap OnWay
  split <;> simp only [Bool.and_eq_true, Bool.or_eq_true, decide_eq_true_eq] <;> grind [distance]

end LinearProbing
