import LinearProbing.Proofs.Sizing
import Mathlib.Algebra.Order.Floor.Semiring

/-!
# LinearProbing.Proofs.Capacity.Needed

**The least capacity that holds so many entries** (`neededCapacity`): the least power of two, not below
`minCapacity`, at which a load factor allows them (`isLeast_neededCapacity`). It is defined by exact
rational arithmetic.

Growth and compaction look for it in different ways. Growth doubles until the entries fit, and so finds it
if they did not fit before (`neededCapacity_of_doubledCapacity?`). Compaction starts at a guess that is
formed in double precision. The guess may be too small, but rounding never takes it beyond what is needed,
because what is needed has few enough bits to be kept by every rounding (`idealCapacity_le`). So it finds the
needed capacity whenever that is a size at all (`Sizing.compactedFor?_eq`).
-/

namespace LinearProbing

/-! ### Rounding below a number with few bits -/

namespace Double

variable {x : Rat} {m : Nat} {e : Int}

theorem roundTiesToEven_le {n : Int} (h : x ≤ n) : roundTiesToEven x ≤ n := by
  have hfloor : x.floor ≤ n := Int.le_of_lt_add_one (Rat.floor_lt_iff.mpr (by push_cast; linarith))
  have hup : (x.floor : Rat) < x → x.floor + 1 ≤ n := fun hlt => by
    have hcast : (x.floor : Rat) < n := lt_of_lt_of_le hlt h
    exact_mod_cast hcast
  unfold roundTiesToEven
  dsimp only
  split_ifs
  · exact hfloor
  · exact hup (by linarith)
  · exact hfloor
  · exact hup (by linarith)

theorem roundTiesUp_le {n : Int} (h : x ≤ n) : roundTiesUp x ≤ n :=
  Int.le_of_lt_add_one (Rat.floor_lt_iff.mpr (by push_cast; linarith))

/-- Between a power of two and the next one, a number with a significand of at most 53 bits is a multiple
of the unit in the last place. -/
theorem exists_multiple_of_unit (hm : m < 2 ^ 53) {a : Int} (ha : (2 : Rat) ^ a ≤ m * 2 ^ e) :
    ∃ n : Int, (m : Rat) * 2 ^ e = n * 2 ^ (a - 52) := by
  -- a significand of 53 bits that reaches the power cannot stand in a lower place
  have hle : a - 52 ≤ e := by
    by_contra hlt
    have hbits : (m : Rat) ≤ 2 ^ (53 : Int) - 1 := by
      have hcast : (m : Rat) ≤ (2 ^ 53 - 1 : Nat) := by exact_mod_cast Nat.le_pred_of_lt hm
      norm_num at hcast ⊢
      exact hcast
    have hlow : (2 : Rat) ^ (53 : Int) * 2 ^ e ≤ 2 ^ a := by
      rw [← two_zpow_add]
      exact zpow_le_zpow_right₀ (by norm_num) (by omega)
    have hpos := two_zpow_pos e
    nlinarith
  obtain ⟨k, hk⟩ : ∃ k : Nat, e = a - 52 + k := ⟨(e - (a - 52)).toNat, by omega⟩
  refine ⟨m * 2 ^ k, ?_⟩
  rw [hk, two_zpow_add, zpow_natCast]
  push_cast
  ring

/-- **Rounding does not take a number beyond one with a significand of at most 53 bits.** -/
theorem nearest_le (hm : m < 2 ^ 53) (h : x ≤ m * 2 ^ e) : nearest x ≤ m * 2 ^ e := by
  unfold nearest
  split_ifs with hx
  · positivity
  have hpos : 0 < x := not_le.mp hx
  obtain ⟨hlow, hhigh⟩ := exponent_spec hpos
  dsimp only [precision]
  generalize exponent x = a at hlow hhigh ⊢
  have hunit := two_zpow_pos (a - (53 - 1 : Nat))
  -- it is enough that the bound, or the next power of two, is an integer once it is scaled by the unit
  have hround : ∀ n : Int, x ≤ n * 2 ^ (a - (53 - 1 : Nat)) →
      (roundTiesToEven (x / 2 ^ (a - (53 - 1 : Nat))) : Rat) * 2 ^ (a - (53 - 1 : Nat)) ≤
        n * 2 ^ (a - (53 - 1 : Nat)) := by
    intro n hn
    have hint := roundTiesToEven_le ((div_le_iff₀ hunit).mpr hn)
    exact mul_le_mul_of_nonneg_right (by exact_mod_cast hint) hunit.le
  rcases le_or_gt ((2 : Rat) ^ (a + 1)) (m * 2 ^ e) with hbeyond | hwithin
  · have hnext : (2 : Rat) ^ (a + 1) = (2 ^ 53 : Int) * 2 ^ (a - (53 - 1 : Nat)) := by
      have hbits : ((2 ^ 53 : Int) : Rat) = 2 ^ (53 : Int) := by norm_num
      rw [hbits, ← two_zpow_add]
      congr 1
      omega
    exact (hround _ (hnext ▸ hhigh.le)).trans (hnext ▸ hbeyond)
  · obtain ⟨n, hn⟩ := exists_multiple_of_unit hm (hlow.trans h)
    rw [hn] at h ⊢
    exact hround n h

end Double

/-! ### The needed capacity -/

variable {loadFactor : Single} {len k : Nat}

/-- The least power of two, not below `minCapacity`, at which a load factor allows so many entries. -/
def neededCapacity (loadFactor : Single) (len : Nat) : Nat :=
  leastPowerOfTwo (max ⌈(len : Rat) / loadFactor.value⌉₊ minCapacity)

theorem exists_neededCapacity (loadFactor : Single) (len : Nat) :
    ∃ k, neededCapacity loadFactor len = 2 ^ k := exists_leastPowerOfTwo _

theorem minCapacity_le_neededCapacity (loadFactor : Single) (len : Nat) :
    minCapacity ≤ neededCapacity loadFactor len :=
  (Nat.le_max_right ..).trans (le_leastPowerOfTwo _)

theorem le_mul_iff (h : loadFactor.InOpenUnitInterval) (c : Nat) :
    ⌈(len : Rat) / loadFactor.value⌉₊ ≤ c ↔ (len : Rat) ≤ c * loadFactor.value := by
  rw [Nat.ceil_le, div_le_iff₀ h.2.1]

theorem le_floor_iff (h : loadFactor.InOpenUnitInterval) (c : Nat) :
    len ≤ ((c : Rat) * loadFactor.value).floor.toNat ↔ (len : Rat) ≤ c * loadFactor.value := by
  have hnonneg : (0 : Int) ≤ ((c : Rat) * loadFactor.value).floor := by
    rw [Rat.le_floor_iff]
    have hpos := h.2.1
    push_cast
    positivity
  rw [Int.le_toNat hnonneg, Rat.le_floor_iff]
  push_cast
  rfl

/-- The threshold of a capacity allows so many entries exactly when their quotient by the load factor is
not above the capacity. -/
theorem le_threshold_iff (h : loadFactor.InOpenUnitInterval) :
    len ≤ threshold (2 ^ k) loadFactor ↔ (len : Rat) ≤ (2 ^ k : Nat) * loadFactor.value := by
  rw [threshold_two_pow h, ← le_floor_iff h]

theorem neededCapacity_le_iff (h : loadFactor.InOpenUnitInterval) :
    neededCapacity loadFactor len ≤ 2 ^ k ↔
      minCapacity ≤ 2 ^ k ∧ len ≤ threshold (2 ^ k) loadFactor := by
  rw [le_threshold_iff h, ← le_mul_iff h]
  constructor
  · intro hle
    have hmax := (le_leastPowerOfTwo _).trans hle
    exact ⟨(Nat.le_max_right ..).trans hmax, (Nat.le_max_left ..).trans hmax⟩
  · rintro ⟨hmin, hlen⟩
    exact leastPowerOfTwo_le (Nat.max_le.mpr ⟨hlen, hmin⟩)

/-- **It is the least of its kind.** -/
theorem isLeast_neededCapacity (h : loadFactor.InOpenUnitInterval) (len : Nat) :
    IsLeast {c : Nat | (∃ k, c = 2 ^ k) ∧ minCapacity ≤ c ∧
      len ≤ ((c : Rat) * loadFactor.value).floor.toNat} (neededCapacity loadFactor len) := by
  constructor
  · obtain ⟨k, hk⟩ := exists_neededCapacity loadFactor len
    obtain ⟨hmin, hlen⟩ := (neededCapacity_le_iff h).mp hk.le
    rw [hk]
    exact ⟨⟨k, rfl⟩, hmin, (threshold_two_pow h k).symm ▸ hlen⟩
  · rintro _ ⟨⟨k, rfl⟩, hmin, hlen⟩
    exact (neededCapacity_le_iff h).mpr ⟨hmin, (threshold_two_pow h k).symm ▸ hlen⟩

theorem neededCapacity_mono (h : loadFactor.InOpenUnitInterval) {fewer : Nat} (hle : fewer ≤ len) :
    neededCapacity loadFactor fewer ≤ neededCapacity loadFactor len := by
  obtain ⟨k, hk⟩ := exists_neededCapacity loadFactor len
  obtain ⟨hmin, hlen⟩ := (neededCapacity_le_iff h).mp hk.le
  rw [hk]
  exact (neededCapacity_le_iff h).mpr ⟨hmin, hle.trans hlen⟩

theorem neededCapacity_zero (h : loadFactor.InOpenUnitInterval) :
    neededCapacity loadFactor 0 = minCapacity :=
  le_antisymm ((neededCapacity_le_iff h (k := 3)).mpr ⟨Nat.le_refl _, Nat.zero_le _⟩)
    (minCapacity_le_neededCapacity ..)

/-- What is needed is a size exactly when some power of two in the range of sizes is enough. -/
theorem neededCapacity_lt_sizeLimit_iff (h : loadFactor.InOpenUnitInterval) :
    neededCapacity loadFactor len < sizeLimit ↔
      ∃ k, 2 ^ k < sizeLimit ∧ len ≤ threshold (2 ^ k) loadFactor := by
  constructor
  · intro hsize
    obtain ⟨k, hk⟩ := exists_neededCapacity loadFactor len
    exact ⟨k, hk ▸ hsize, ((neededCapacity_le_iff h).mp hk.le).2⟩
  · rintro ⟨k, hk, hlen⟩
    -- a power of two below `minCapacity` does no better than that
    have hmin : minCapacity ≤ 2 ^ max k 3 :=
      (Nat.pow_le_pow_right (by decide) (Nat.le_max_right k 3) : 2 ^ 3 ≤ 2 ^ max k 3)
    have hsize : 2 ^ max k 3 < sizeLimit := by
      rcases Nat.le_total k 3 with hle | hle
      · rw [Nat.max_eq_right hle]
        decide
      · rwa [Nat.max_eq_left hle]
    have hmono := threshold_mono h (Nat.le_max_left k 3)
    exact ((neededCapacity_le_iff h).mpr ⟨hmin, hlen.trans hmono⟩).trans_lt hsize

/-- A capacity that allows so many entries, while its half does not, is the needed one. -/
theorem neededCapacity_eq (h : loadFactor.InOpenUnitInterval) (hmin : minCapacity ≤ 2 ^ (k + 1))
    (hlow : threshold (2 ^ k) loadFactor < len) (hhigh : len ≤ threshold (2 ^ (k + 1)) loadFactor) :
    neededCapacity loadFactor len = 2 ^ (k + 1) := by
  refine le_antisymm ((neededCapacity_le_iff h).mpr ⟨hmin, hhigh⟩) ?_
  obtain ⟨j, hj⟩ := exists_neededCapacity loadFactor len
  have hlen := ((neededCapacity_le_iff h).mp hj.le).2
  rw [hj]
  refine Nat.pow_le_pow_right (by decide) (Nat.lt_of_not_le fun hjk => ?_)
  have hmono := threshold_mono h hjk
  omega

/-! ### Growing and compacting -/

/-- **Growth finds the needed capacity**, if the entries did not fit before. -/
theorem neededCapacity_of_doubledCapacity? (h : loadFactor.InOpenUnitInterval) {doublings capacity : Nat}
    (hmin : minCapacity ≤ 2 ^ k) (hlen : threshold (2 ^ k) loadFactor < len)
    (hgrown : Sizing.doubledCapacity? loadFactor len doublings (2 ^ k) = some capacity) :
    capacity = neededCapacity loadFactor len := by
  induction doublings generalizing k with
  | zero => simp [Sizing.doubledCapacity?] at hgrown
  | succ doublings ih =>
      have hdouble : 2 * 2 ^ k = 2 ^ (k + 1) := (Nat.pow_succ').symm
      have hmin' : minCapacity ≤ 2 ^ (k + 1) := by omega
      rw [Sizing.doubledCapacity?, hdouble] at hgrown
      split at hgrown
      · exact absurd hgrown (by simp)
      split at hgrown
      · -- the first capacity that fits, just above one that does not, is the needed one
        next hfits =>
        obtain rfl := Option.some.inj hgrown
        exact (neededCapacity_eq h hmin' hlen hfits).symm
      · next hfull => exact ih hmin' (Nat.lt_of_not_le hfull) hgrown

/-- The search for a sufficient capacity ends at the needed one, from any power of two below it, if the
needed one is a size. -/
theorem sufficientCapacity?_eq_some (h : loadFactor.InOpenUnitInterval) {doublings : Nat}
    (hmin : minCapacity ≤ 2 ^ k) (hlow : 2 ^ k ≤ neededCapacity loadFactor len)
    (hhigh : neededCapacity loadFactor len < 2 ^ (k + doublings))
    (hsize : neededCapacity loadFactor len < sizeLimit) :
    Sizing.sufficientCapacity? loadFactor len doublings (2 ^ k) =
      some (neededCapacity loadFactor len) := by
  induction doublings generalizing k with
  | zero => exact absurd hhigh (Nat.not_lt_of_le hlow)
  | succ doublings ih =>
      have hdouble : 2 * 2 ^ k = 2 ^ (k + 1) := (Nat.pow_succ').symm
      rw [Sizing.sufficientCapacity?, hdouble]
      split
      · next hfits =>
        exact congrArg some (le_antisymm hlow ((neededCapacity_le_iff h).mpr ⟨hmin, hfits⟩))
      · next hfull =>
        obtain ⟨j, hj⟩ := exists_neededCapacity loadFactor len
        have hlen := ((neededCapacity_le_iff h).mp hj.le).2
        -- this capacity does not fit, so the needed one is a later power of two, and the next doubling does
        -- not pass it
        have hkj : k < j := Nat.lt_of_not_le fun hjk => hfull (hlen.trans (threshold_mono h hjk))
        have hnext : 2 ^ (k + 1) ≤ neededCapacity loadFactor len :=
          hj ▸ Nat.pow_le_pow_right (by decide) hkj
        rw [if_neg (Nat.not_le_of_lt (hnext.trans_lt hsize))]
        exact ih (hmin.trans (Nat.pow_le_pow_right (by decide) (Nat.le_succ k))) hnext
          (by rwa [Nat.succ_add_eq_add_succ])

/-- If it is none, the search finds nothing. -/
theorem sufficientCapacity?_eq_none (h : loadFactor.InOpenUnitInterval) (doublings : Nat)
    (hmin : minCapacity ≤ 2 ^ k) (hword : 2 ^ k < sizeLimit)
    (hbeyond : sizeLimit ≤ neededCapacity loadFactor len) :
    Sizing.sufficientCapacity? loadFactor len doublings (2 ^ k) = none := by
  induction doublings generalizing k with
  | zero => rfl
  | succ doublings ih =>
      have hdouble : 2 * 2 ^ k = 2 ^ (k + 1) := (Nat.pow_succ').symm
      have hfull : ¬ len ≤ threshold (2 ^ k) loadFactor := fun hfits => by
        have hneeded := (neededCapacity_le_iff h).mpr ⟨hmin, hfits⟩
        omega
      rw [Sizing.sufficientCapacity?, if_neg hfull, hdouble]
      split
      · rfl
      · next hnext => exact ih (by omega) (Nat.lt_of_not_le hnext)

/-- **The first guess of a compaction is not above the needed capacity.** -/
theorem idealCapacity_le (h : loadFactor.InOpenUnitInterval) (len : Nat) :
    Sizing.idealCapacity loadFactor len ≤ neededCapacity loadFactor len := by
  obtain ⟨j, hj⟩ := exists_neededCapacity loadFactor len
  have hlen := (le_threshold_iff h).mp ((neededCapacity_le_iff h).mp hj.le).2
  have hmantissa : loadFactor.mantissa < 2 ^ 53 := loadFactor.mantissa_lt.trans (by norm_num)
  have hvalue : ((2 ^ j : Nat) : Rat) * loadFactor.value =
      loadFactor.mantissa * 2 ^ (loadFactor.exponent + j) := by
    rw [h.value_eq, Single.magnitude, Double.two_zpow_add, zpow_natCast]
    push_cast
    ring
  have hnumber : Double.ofNat len ≤ (2 ^ j : Nat) * loadFactor.value := by
    rw [hvalue] at hlen ⊢
    exact Double.nearest_le hmantissa hlen
  have hquotient : Double.div (Double.ofNat len) loadFactor.value ≤ ((2 ^ j : Nat) : Int) := by
    have hexact : Double.ofNat len / loadFactor.value ≤ ((1 : Nat) : Rat) * 2 ^ (j : Int) := by
      rw [div_le_iff₀ h.2.1]
      simpa using hnumber
    have hrounded := Double.nearest_le (by norm_num) hexact
    simpa [Double.div] using hrounded
  have hguess := Double.roundTiesUp_le hquotient
  rw [hj, Sizing.idealCapacity]
  -- the cast to a size only makes it smaller
  refine (Nat.min_le_left ..).trans ?_
  omega

/-- Nor is the power of two at which its search begins. -/
theorem leastPowerOfTwo_idealCapacity_le (h : loadFactor.InOpenUnitInterval) (len : Nat) :
    leastPowerOfTwo (max (Sizing.idealCapacity loadFactor len) minCapacity) ≤
      neededCapacity loadFactor len := by
  obtain ⟨j, hj⟩ := exists_neededCapacity loadFactor len
  have hideal := idealCapacity_le h len
  have hmin := minCapacity_le_neededCapacity loadFactor len
  rw [hj] at hideal hmin ⊢
  exact leastPowerOfTwo_le (Nat.max_le.mpr ⟨hideal, hmin⟩)

namespace Sizing

variable {s t : Sizing}

/-- What a sizing has to hold so that so many entries fit. -/
theorem Valid.neededCapacity_le_iff (h : s.Valid) :
    neededCapacity s.loadFactor len ≤ s.capacity ↔ len ≤ s.threshold := by
  obtain ⟨k, -, -, hk⟩ := h.capacity
  have hmin := h.capacity.min_le
  rw [h.threshold]
  rw [hk] at hmin ⊢
  rw [LinearProbing.neededCapacity_le_iff h.loadFactor]
  exact and_iff_right hmin

theorem Valid.capacity_grownFor? (h : s.Valid) (hlen : s.threshold < len)
    (hgrown : s.grownFor? len = some t) : t.capacity = neededCapacity s.loadFactor len := by
  obtain ⟨capacity, hcapacity, rfl⟩ := Option.map_eq_some_iff.mp hgrown
  obtain ⟨k, -, -, hk⟩ := h.capacity
  have hmin := h.capacity.min_le
  rw [h.threshold] at hlen
  rw [hk] at hcapacity hmin hlen
  exact neededCapacity_of_doubledCapacity? h.loadFactor hmin hlen hcapacity

/-- **Compaction finds the needed capacity**, unless that is out of the range of sizes, and then it finds
none. -/
theorem compactedFor?_eq (h : s.loadFactor.InOpenUnitInterval) (len : Nat) :
    s.compactedFor? len =
      if neededCapacity s.loadFactor len < sizeLimit then
        some (ofCapacity (neededCapacity s.loadFactor len) s.loadFactor)
      else none := by
  obtain ⟨k, hk⟩ := exists_leastPowerOfTwo (max (idealCapacity s.loadFactor len) minCapacity)
  have hmin : minCapacity ≤ 2 ^ k := hk ▸ (Nat.le_max_right ..).trans (le_leastPowerOfTwo _)
  have hguess : 2 ^ k ≤ neededCapacity s.loadFactor len :=
    hk ▸ leastPowerOfTwo_idealCapacity_le h len
  rw [compactedFor?, hk]
  -- the doublings end at the needed capacity, which a word may be too narrow for
  by_cases hsize : neededCapacity s.loadFactor len < sizeLimit
  · have hhigh : neededCapacity s.loadFactor len < 2 ^ (k + 64) :=
      hsize.trans_le (Nat.pow_le_pow_right (by decide) (Nat.le_add_left 64 k) : 2 ^ 64 ≤ 2 ^ (k + 64))
    rw [if_pos hsize, if_neg (Nat.not_le_of_lt (hguess.trans_lt hsize)),
      sufficientCapacity?_eq_some h hmin hguess hhigh hsize]
    rfl
  · rw [if_neg hsize]
    split
    · rfl
    · next hword =>
      rw [sufficientCapacity?_eq_none h 64 hmin (Nat.lt_of_not_le hword) (Nat.le_of_not_lt hsize)]
      rfl

/-- Compaction finds nothing exactly when the entries fit under no power of two in the range of sizes. -/
theorem compactedFor?_eq_none_iff (h : s.loadFactor.InOpenUnitInterval) (len : Nat) :
    s.compactedFor? len = none ↔
      ∀ k, 2 ^ k < sizeLimit → LinearProbing.threshold (2 ^ k) s.loadFactor < len := by
  have hneeded : neededCapacity s.loadFactor len < sizeLimit ↔ _ := neededCapacity_lt_sizeLimit_iff h
  rw [compactedFor?_eq h]
  split
  · next hsize =>
    obtain ⟨k, hk, hlen⟩ := hneeded.mp hsize
    exact ⟨nofun, fun hfull => absurd hlen (Nat.not_le_of_lt (hfull k hk))⟩
  · next hsize =>
    exact ⟨fun _ k hk => Nat.lt_of_not_le fun hlen => hsize (hneeded.mpr ⟨k, hk, hlen⟩), fun _ => rfl⟩

/-- If the entries fit before, compaction finds what they need. -/
theorem Valid.compactedFor?_eq_some (h : s.Valid) (hlen : len ≤ s.threshold) :
    s.compactedFor? len = some (ofCapacity (neededCapacity s.loadFactor len) s.loadFactor) := by
  have hneeded : neededCapacity s.loadFactor len ≤ maxCapacity :=
    (h.neededCapacity_le_iff.mpr hlen).trans h.capacity.le_max
  rw [compactedFor?_eq h.loadFactor, if_pos (hneeded.trans_lt (by decide))]

/-- **Where compaction finds nothing**, there are too many entries for every table, and no room to grow
either. -/
theorem Valid.of_compactedFor?_eq_none (h : s.Valid) (hnone : s.compactedFor? len = none) :
    s.threshold < len ∧ s.grownFor? len = none := by
  -- only a needed capacity beyond a word gives nothing, and no capacity is as large
  have hbeyond : sizeLimit ≤ neededCapacity s.loadFactor len := by
    by_contra hsize
    rw [compactedFor?_eq h.loadFactor, if_pos (Nat.lt_of_not_le hsize)] at hnone
    cases hnone
  have hmax : maxCapacity < neededCapacity s.loadFactor len :=
    Nat.lt_of_lt_of_le (by decide : maxCapacity < sizeLimit) hbeyond
  constructor
  · refine Nat.lt_of_not_le fun hlen => ?_
    have hneeded := (h.neededCapacity_le_iff.mpr hlen).trans h.capacity.le_max
    omega
  · refine Option.eq_none_iff_forall_ne_some.mpr fun t ht => ?_
    obtain ⟨hvalid, -, hload, hlen⟩ := h.of_grownFor? ht
    have hneeded := (hvalid.neededCapacity_le_iff.mpr hlen).trans hvalid.capacity.le_max
    rw [hload] at hneeded
    omega

end Sizing

end LinearProbing
