import LinearProbing.Hash.Mix
import LinearProbing.Sizing
import LinearProbing.Proofs.Numeric.Double

/-!
# LinearProbing.Proofs.Sizing

**What all sizings have in common.** `Sizing.Valid` is the invariant of the capacity, the load factor and
the threshold that a table carries: it holds of every sizing built from a configuration, and growth and
compaction keep it.

The threshold is the product of capacity and load factor without its fraction, although it is formed in
double precision (`threshold_two_pow`): the capacity is a power of two, and the load factor has 24 bits.
So it stays below the capacity (`threshold_lt`), and a table always has a vacant slot.
-/

namespace LinearProbing

theorem exists_of_map_eq_ok {ε α β : Type} {f : α → β} {x : Except ε α} {b : β}
    (h : x.map f = .ok b) : ∃ a, x = .ok a ∧ f a = b := by
  cases x with
  | error e => exact absurd h (by simp [Except.map])
  | ok a => exact ⟨a, rfl, Except.ok.inj h⟩

/-! ### Load factors -/

namespace Single

variable {x : Single}

theorem mantissa_lt (x : Single) : x.mantissa < 2 ^ 24 := by
  have hfraction : x.fraction < 2 ^ 23 := Nat.mod_lt _ (by decide)
  unfold mantissa
  split
  · omega
  · show 2 ^ 23 + x.fraction < 2 ^ 24
    omega

theorem magnitude_nonneg (x : Single) : 0 ≤ x.magnitude := by
  unfold magnitude
  positivity

/-- A number in the open unit interval has no sign. -/
theorem InOpenUnitInterval.value_eq (h : x.InOpenUnitInterval) : x.value = x.magnitude := by
  have hpos := h.2.1
  unfold value at hpos ⊢
  split
  · next hneg =>
    rw [if_pos hneg] at hpos
    have := x.magnitude_nonneg
    linarith
  · rfl

end Single

/-! ### The threshold -/

variable {loadFactor : Single} {len k : Nat}

/-- **The product of a power of two and a load factor loses no bits** in double precision. -/
theorem mul_ofNat_two_pow (h : loadFactor.InOpenUnitInterval) (k : Nat) :
    Double.mul (Double.ofNat (2 ^ k)) loadFactor.value = ((2 ^ k : Nat) : Rat) * loadFactor.value := by
  -- the product has the significand of the load factor, which double precision can hold
  have hexact : (2 : Rat) ^ (k : Int) * loadFactor.value =
      loadFactor.mantissa * 2 ^ (loadFactor.exponent + k) := by
    rw [h.value_eq, Single.magnitude, Double.two_zpow_add]
    ring
  have hlt : loadFactor.mantissa < 2 ^ 53 :=
    Nat.lt_trans loadFactor.mantissa_lt (by norm_num)
  rw [Double.ofNat_two_pow, Double.mul, hexact, Double.nearest_of_lt hlt, ← hexact, zpow_natCast]
  push_cast
  rfl

/-- For a power of two, the threshold is the exact product, rounded down. -/
theorem threshold_two_pow (h : loadFactor.InOpenUnitInterval) (k : Nat) :
    threshold (2 ^ k) loadFactor = (((2 ^ k : Nat) : Rat) * loadFactor.value).floor.toNat := by
  rw [threshold, mul_ofNat_two_pow h]

/-- The threshold is below the capacity, so a slot always stays vacant. -/
theorem threshold_lt (h : loadFactor.InOpenUnitInterval) (k : Nat) :
    threshold (2 ^ k) loadFactor < 2 ^ k := by
  rw [threshold_two_pow h, Int.toNat_lt' (by positivity), Rat.floor_lt_iff]
  have hpos : (0 : Rat) < ((2 ^ k : Nat) : Rat) := by positivity
  calc ((2 ^ k : Nat) : Rat) * loadFactor.value
      < ((2 ^ k : Nat) : Rat) * 1 := mul_lt_mul_of_pos_left h.2.2 hpos
    _ = (((2 ^ k : Nat) : Int) : Rat) := by push_cast; ring

/-- A greater power of two allows no fewer entries. -/
theorem threshold_mono (h : loadFactor.InOpenUnitInterval) {j : Nat} (hjk : j ≤ k) :
    threshold (2 ^ j) loadFactor ≤ threshold (2 ^ k) loadFactor := by
  rw [threshold_two_pow h, threshold_two_pow h]
  refine Int.toNat_le_toNat (Rat.floor_monotone ?_)
  have hpow : ((2 ^ j : Nat) : Rat) ≤ ((2 ^ k : Nat) : Rat) :=
    Nat.cast_le.mpr (Nat.pow_le_pow_right (by decide) hjk)
  exact mul_le_mul_of_nonneg_right hpow h.2.1.le

/-! ### Capacities -/

/-- A capacity is a power of two between the least and the greatest one. -/
def IsCapacity (capacity : Nat) : Prop := ∃ k, 3 ≤ k ∧ k ≤ 62 ∧ capacity = 2 ^ k

theorem isCapacity_two_pow (hmin : minCapacity ≤ 2 ^ k) (hmax : 2 ^ k ≤ maxCapacity) :
    IsCapacity (2 ^ k) := by
  refine ⟨k, ?_, ?_, rfl⟩
  · exact (Nat.pow_le_pow_iff_right (by decide)).mp (show 2 ^ 3 ≤ 2 ^ k from hmin)
  · exact (Nat.pow_le_pow_iff_right (by decide)).mp (show 2 ^ k ≤ 2 ^ 62 from hmax)

theorem IsCapacity.min_le {capacity : Nat} (h : IsCapacity capacity) : minCapacity ≤ capacity := by
  obtain ⟨k, hk, -, rfl⟩ := h
  exact Nat.pow_le_pow_right (n := 2) (by decide) hk

theorem IsCapacity.le_max {capacity : Nat} (h : IsCapacity capacity) : capacity ≤ maxCapacity := by
  obtain ⟨k, -, hk, rfl⟩ := h
  exact Nat.pow_le_pow_right (n := 2) (by decide) hk

theorem exists_leastPowerOfTwo (n : Nat) : ∃ k, leastPowerOfTwo n = 2 ^ k := by
  unfold leastPowerOfTwo
  split
  · exact ⟨0, rfl⟩
  · exact ⟨_, rfl⟩

theorem le_leastPowerOfTwo (n : Nat) : n ≤ leastPowerOfTwo n := by
  unfold leastPowerOfTwo
  split
  · assumption
  · have h : n - 1 < 2 ^ ((n - 1).log2 + 1) := Nat.lt_log2_self
    show n ≤ 2 ^ ((n - 1).log2 + 1)
    omega

/-- A power of two that is not below `n` is not below the least one either. -/
theorem leastPowerOfTwo_le {n k : Nat} (h : n ≤ 2 ^ k) : leastPowerOfTwo n ≤ 2 ^ k := by
  unfold leastPowerOfTwo
  split
  · exact Nat.one_le_two_pow
  · next hn =>
    have hlog : (n - 1).log2 < k := (Nat.log2_lt (by omega)).mpr (by omega)
    exact Nat.pow_le_pow_right (n := 2) (by decide) hlog

theorem isCapacity_of_capacityFor {requested capacity : Nat}
    (h : capacityFor requested = .ok capacity) : IsCapacity capacity := by
  unfold capacityFor at h
  split at h
  · exact absurd h (by simp)
  split at h
  · exact absurd h (by simp)
  next hmax =>
  obtain rfl := Except.ok.inj h
  -- the greatest capacity is a power of two itself, so rounding up does not pass it
  obtain ⟨k, hk⟩ := exists_leastPowerOfTwo (max requested minCapacity)
  have hge := le_leastPowerOfTwo (max requested minCapacity)
  have hle := leastPowerOfTwo_le (n := max requested minCapacity) (k := 62)
    (Nat.max_le.mpr ⟨Nat.le_of_not_lt hmax, by decide⟩)
  rw [hk] at hge hle ⊢
  exact isCapacity_two_pow (Nat.le_trans (Nat.le_max_right ..) hge) hle

/-! ### Valid sizings -/

namespace Sizing

/-- What holds of the sizing of every table. -/
structure Valid (s : Sizing) : Prop where
  capacity : IsCapacity s.capacity
  loadFactor : s.loadFactor.InOpenUnitInterval
  threshold : s.threshold = LinearProbing.threshold s.capacity s.loadFactor

variable {s t : Sizing}

theorem valid_ofCapacity {capacity : Nat} (hc : IsCapacity capacity)
    (hl : loadFactor.InOpenUnitInterval) : (ofCapacity capacity loadFactor).Valid :=
  ⟨hc, hl, rfl⟩

/-- A valid sizing is made by its capacity and its load factor. -/
theorem Valid.eq_ofCapacity (h : s.Valid) : s = ofCapacity s.capacity s.loadFactor := by
  rw [ofCapacity, ← h.threshold]

theorem Valid.capacity_pos (h : s.Valid) : 0 < s.capacity :=
  Nat.lt_of_lt_of_le (by decide) h.capacity.min_le

/-- The threshold is the product of capacity and load factor, rounded down. -/
theorem Valid.threshold_eq (h : s.Valid) :
    s.threshold = ((s.capacity : Rat) * s.loadFactor.value).floor.toNat := by
  obtain ⟨k, -, -, hk⟩ := h.capacity
  rw [h.threshold, hk]
  exact threshold_two_pow h.loadFactor k

theorem Valid.threshold_lt_capacity (h : s.Valid) : s.threshold < s.capacity := by
  obtain ⟨k, -, -, hk⟩ := h.capacity
  rw [h.threshold, hk]
  exact threshold_lt h.loadFactor k

theorem valid_of_ofConfig {config : TableConfig} (h : ofConfig config = .ok s) : s.Valid := by
  unfold ofConfig at h
  split at h
  · next hl =>
    obtain ⟨capacity, hc, rfl⟩ := exists_of_map_eq_ok h
    exact valid_ofCapacity (isCapacity_of_capacityFor hc) hl
  · exact absurd h (by simp)

theorem defaultLoadFactor_inOpenUnitInterval : defaultLoadFactor.InOpenUnitInterval := by
  have hvalue : defaultLoadFactor.value = 10905190 / 2 ^ 24 := by
    have hm : defaultLoadFactor.mantissa = 10905190 := by decide
    have he : defaultLoadFactor.exponent = -24 := by decide
    have hn : defaultLoadFactor.isNegative = false := by decide
    rw [Single.value, hn, if_neg (by decide), Single.magnitude, hm, he]
    norm_num
  refine ⟨by decide, ?_, ?_⟩ <;> rw [hvalue] <;> norm_num

theorem valid_standard : standard.Valid :=
  valid_ofCapacity ⟨3, by decide, by decide, rfl⟩ defaultLoadFactor_inOpenUnitInterval

/-- A table that is built without a configuration has the sizing of the default one. -/
theorem ofConfig_default : ofConfig {} = .ok standard := by
  rw [ofConfig, if_pos defaultLoadFactor_inOpenUnitInterval]
  rfl

/-! ### Growing -/

theorem doubledCapacity?_eq_some {doublings k capacity : Nat} (hmin : minCapacity ≤ 2 ^ k)
    (h : doubledCapacity? loadFactor len doublings (2 ^ k) = some capacity) :
    IsCapacity capacity ∧ 2 ^ k < capacity ∧ len ≤ LinearProbing.threshold capacity loadFactor := by
  -- each doubling takes the exponent up by one, and the induction is on the doublings left
  induction doublings generalizing k with
  | zero => simp [doubledCapacity?] at h
  | succ doublings ih =>
      have hdouble : 2 * 2 ^ k = 2 ^ (k + 1) := (Nat.pow_succ').symm
      rw [doubledCapacity?, hdouble] at h
      split at h
      · exact absurd h (by simp)
      next hmax =>
      have hgrow : 2 ^ k < 2 ^ (k + 1) := Nat.pow_lt_pow_right (by decide) (Nat.lt_succ_self k)
      split at h
      · next hlen =>
        obtain rfl := Option.some.inj h
        exact ⟨isCapacity_two_pow (by omega) (Nat.le_of_not_lt hmax), hgrow, hlen⟩
      · obtain ⟨hc, hlt, hlen⟩ := ih (by omega) h
        exact ⟨hc, by omega, hlen⟩

/-- A grown sizing is valid, greater, and has room for the entries it was made for. -/
theorem Valid.of_grownFor? (h : s.Valid) (ht : s.grownFor? len = some t) :
    t.Valid ∧ s.capacity < t.capacity ∧ t.loadFactor = s.loadFactor ∧ len ≤ t.threshold := by
  obtain ⟨capacity, hc, rfl⟩ := Option.map_eq_some_iff.mp ht
  obtain ⟨k, hk, -, hcap⟩ := h.capacity
  have hmin := h.capacity.min_le
  rw [hcap] at hc hmin
  obtain ⟨hvalid, hlt, hlen⟩ := doubledCapacity?_eq_some hmin hc
  exact ⟨valid_ofCapacity hvalid h.loadFactor, by rwa [hcap], rfl, hlen⟩

theorem lt_of_doubledCapacity?_eq_none {doublings k : Nat}
    (h : doubledCapacity? loadFactor len doublings (2 ^ k) = none) {j : Nat} (hlt : k < j)
    (hle : j ≤ k + doublings) (hj : 2 ^ j ≤ maxCapacity) :
    LinearProbing.threshold (2 ^ j) loadFactor < len := by
  induction doublings generalizing k with
  | zero => omega
  | succ doublings ih =>
      rw [doubledCapacity?, show 2 * 2 ^ k = 2 ^ (k + 1) from (Nat.pow_succ').symm] at h
      split at h
      · next hmax =>
        have hpow : 2 ^ (k + 1) ≤ 2 ^ j := Nat.pow_le_pow_right (by decide) hlt
        omega
      split at h
      · exact absurd h (by simp)
      next hlen =>
      -- `2 ^ (k + 1)` was tried and is too small, the greater ones are tried next
      rcases Nat.eq_or_lt_of_le (Nat.succ_le_of_lt hlt) with rfl | hgt
      · exact Nat.lt_of_not_le hlen
      · exact ih h hgt (by omega)

/-- A table that cannot grow has too many entries for every capacity. -/
theorem Valid.threshold_lt_of_grownFor?_eq_none (h : s.Valid) (hlen : s.threshold < len)
    (hnone : s.grownFor? len = none) {capacity : Nat} (hc : IsCapacity capacity) :
    LinearProbing.threshold capacity s.loadFactor < len := by
  obtain ⟨k, -, -, hk⟩ := h.capacity
  obtain ⟨j, -, hj, rfl⟩ := hc
  have hnone' : doubledCapacity? s.loadFactor len 62 (2 ^ k) = none := by
    rw [← hk]
    exact Option.map_eq_none_iff.mp hnone
  -- greater capacities were all tried, and smaller ones allow no more entries
  rcases Nat.lt_or_ge k j with hlt | hge
  · exact lt_of_doubledCapacity?_eq_none hnone' hlt (by omega)
      (Nat.pow_le_pow_right (n := 2) (by decide) hj)
  · refine Nat.lt_of_le_of_lt (threshold_mono h.loadFactor hge) ?_
    rwa [← hk, ← h.threshold]

/-! ### Compacting -/

/-- What is found by doubling is a power of two under which the entries fit. -/
theorem exists_of_sufficientCapacity?_eq_some {doublings k capacity : Nat}
    (h : sufficientCapacity? loadFactor len doublings (2 ^ k) = some capacity) :
    ∃ j, capacity = 2 ^ (k + j) ∧ len ≤ LinearProbing.threshold capacity loadFactor := by
  induction doublings generalizing k with
  | zero => simp [sufficientCapacity?] at h
  | succ doublings ih =>
      rw [sufficientCapacity?, show 2 * 2 ^ k = 2 ^ (k + 1) from (Nat.pow_succ').symm] at h
      split at h
      · next hlen =>
        obtain rfl := Option.some.inj h
        exact ⟨0, rfl, hlen⟩
      split at h
      · exact absurd h (by simp)
      · obtain ⟨j, hj, hlen⟩ := ih h
        exact ⟨j + 1, by rw [hj, Nat.add_assoc, Nat.add_comm 1], hlen⟩

/-- A compacted sizing has room for the entries it was made for, and is valid if it is smaller than a valid
one. -/
theorem Valid.of_compactedFor? (h : s.Valid) (ht : s.compactedFor? len = some t) :
    t.loadFactor = s.loadFactor ∧ len ≤ t.threshold ∧ (t.capacity < s.capacity → t.Valid) := by
  obtain ⟨k, hk⟩ := exists_leastPowerOfTwo (max (idealCapacity s.loadFactor len) minCapacity)
  have hguess : minCapacity ≤ 2 ^ k :=
    hk ▸ Nat.le_trans (Nat.le_max_right ..) (le_leastPowerOfTwo _)
  unfold compactedFor? at ht
  dsimp only at ht
  split at ht
  · exact absurd ht (by simp)
  obtain ⟨capacity, hcapacity, rfl⟩ := Option.map_eq_some_iff.mp ht
  rw [hk] at hcapacity
  obtain ⟨j, rfl, hlen⟩ := exists_of_sufficientCapacity?_eq_some hcapacity
  -- the result is a power of two from the least capacity on; below the old capacity it is a capacity
  refine ⟨rfl, hlen, fun hlt => valid_ofCapacity (isCapacity_two_pow ?_ ?_) h.loadFactor⟩
  · exact Nat.le_trans hguess (Nat.pow_le_pow_right (by decide) (Nat.le_add_right k j))
  · exact (Nat.lt_of_lt_of_le hlt h.capacity.le_max).le

end Sizing

end LinearProbing
