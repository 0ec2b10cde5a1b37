import LinearProbing.Proofs.Capacity.Needed
import LinearProbing.Table

/-!
# LinearProbing.Proofs.Capacity.Growth

**Thresholds are exact, and growth goes to the least capacity that is enough.** A load factor has 24 bits,
so its product with a power of two is a number that double precision holds, and the threshold is that
product without its fraction (`ExactThreshold`). Doubling a capacity at least doubles its threshold
(`two_mul_threshold_le`); so a table that is one entry beyond its threshold need only be doubled once,
unless its threshold is zero.

`Sizing.GrowsLeast` says what growth finds, and when it finds nothing. All of it is put together in
`thresholds_and_growth_exact`.
-/

namespace LinearProbing

variable {loadFactor : Single} {capacity len k : Nat}

/-! ### Thresholds -/

/-- Capacities are powers of two, so the product that is rounded down is the exact one. -/
theorem IsCapacity.mul_ofNat_eq (hc : IsCapacity capacity) (h : loadFactor.InOpenUnitInterval) :
    Double.mul (Double.ofNat capacity) loadFactor.value = capacity * loadFactor.value := by
  obtain ⟨k, -, -, rfl⟩ := hc
  exact mul_ofNat_two_pow h k

theorem natCast_threshold_two_pow (h : loadFactor.InOpenUnitInterval) (k : Nat) :
    (threshold (2 ^ k) loadFactor : Int) = (((2 ^ k : Nat) : Rat) * loadFactor.value).floor := by
  have hpos := h.2.1
  have hnonneg : (0 : Int) ≤ (((2 ^ k : Nat) : Rat) * loadFactor.value).floor := by
    rw [Rat.le_floor_iff]
    push_cast
    positivity
  rw [threshold_two_pow h, Int.toNat_of_nonneg hnonneg]

/-- Doubling a capacity leaves room for twice as many entries, at least. -/
theorem two_mul_threshold_le (h : loadFactor.InOpenUnitInterval) (k : Nat) :
    2 * threshold (2 ^ k) loadFactor ≤ threshold (2 ^ (k + 1)) loadFactor := by
  have hfits := (le_threshold_iff h).mp (Nat.le_refl (threshold (2 ^ k) loadFactor))
  rw [le_threshold_iff h]
  push_cast at hfits ⊢
  rw [pow_succ]
  linarith

/-- What the threshold of a capacity is under a load factor. -/
structure ExactThreshold (loadFactor : Single) (capacity : Nat) : Prop where
  /-- The product in double precision loses no bits. -/
  product : Double.mul (Double.ofNat capacity) loadFactor.value = capacity * loadFactor.value
  /-- The threshold is the product, rounded down. -/
  floor : (threshold capacity loadFactor : Int) = ((capacity : Rat) * loadFactor.value).floor
  /-- A slot always stays vacant. -/
  lt : threshold capacity loadFactor < capacity
  /-- A greater capacity allows no fewer entries. -/
  mono : ∀ greater, IsCapacity greater → capacity ≤ greater →
    threshold capacity loadFactor ≤ threshold greater loadFactor
  /-- Twice the capacity allows twice as many entries. -/
  double : 2 * threshold capacity loadFactor ≤ threshold (2 * capacity) loadFactor

theorem exactThreshold (h : loadFactor.InOpenUnitInterval) (hc : IsCapacity capacity) :
    ExactThreshold loadFactor capacity := by
  have hproduct := hc.mul_ofNat_eq h
  obtain ⟨k, -, -, rfl⟩ := hc
  refine ⟨hproduct, natCast_threshold_two_pow h k, threshold_lt h k, ?_, ?_⟩
  · rintro _ ⟨j, -, -, rfl⟩ hle
    exact threshold_mono h ((Nat.pow_le_pow_iff_right (by decide)).mp hle)
  · rw [← Nat.pow_succ']
    exact two_mul_threshold_le h k

/-! ### Growth -/

namespace Sizing

variable {s t : Sizing}

/-- A greater capacity under which so many entries fit. -/
def Admits (s : Sizing) (len capacity : Nat) : Prop :=
  IsCapacity capacity ∧ s.capacity < capacity ∧ len ≤ LinearProbing.threshold capacity s.loadFactor

/-- **What growth finds is the least there is.** -/
theorem Valid.isLeast_grownFor? (h : s.Valid) (hlen : s.threshold < len)
    (hgrown : s.grownFor? len = some t) : IsLeast {c | s.Admits len c} t.capacity := by
  obtain ⟨hvalid, hlt, hload, hfits⟩ := h.of_grownFor? hgrown
  refine ⟨⟨hvalid.capacity, hlt, ?_⟩, ?_⟩
  · rwa [hvalid.threshold, hload] at hfits
  · rintro c ⟨hc, -, hcfits⟩
    have hmin := hc.min_le
    obtain ⟨k, -, -, rfl⟩ := hc
    rw [h.capacity_grownFor? hlen hgrown]
    exact (LinearProbing.neededCapacity_le_iff h.loadFactor).mpr ⟨hmin, hcfits⟩

/-- **Growth finds nothing exactly when there is nothing.** -/
theorem Valid.grownFor?_eq_none_iff (h : s.Valid) (hlen : s.threshold < len) :
    s.grownFor? len = none ↔ ∀ c, ¬ s.Admits len c := by
  constructor
  · rintro hnone c ⟨hc, -, hfits⟩
    exact absurd (h.threshold_lt_of_grownFor?_eq_none hlen hnone hc) (Nat.not_lt_of_le hfits)
  · intro hnever
    cases hgrown : s.grownFor? len with
    | none => rfl
    | some t => exact absurd (h.isLeast_grownFor? hlen hgrown).1 (hnever t.capacity)

/-- One doubling is enough for one entry more, unless no entry was allowed at all. -/
theorem Valid.grownFor?_succ_threshold (h : s.Valid) (hroom : s.capacity < maxCapacity)
    (hsome : 1 ≤ s.threshold) :
    s.grownFor? (s.threshold + 1) = some (ofCapacity (2 * s.capacity) s.loadFactor) := by
  obtain ⟨k, -, hk, hcap⟩ := h.capacity
  have hk62 : k < 62 :=
    (Nat.pow_lt_pow_iff_right (a := 2) (by decide)).mp (show 2 ^ k < 2 ^ 62 from hcap ▸ hroom)
  have hmax : ¬ maxCapacity < 2 * s.capacity := by
    rw [hcap, ← Nat.pow_succ']
    exact Nat.not_lt_of_le (Nat.pow_le_pow_right (n := 2) (by decide) hk62)
  have hfits : s.threshold + 1 ≤ LinearProbing.threshold (2 * s.capacity) s.loadFactor := by
    have hdouble := (exactThreshold h.loadFactor h.capacity).double
    rw [← h.threshold] at hdouble
    omega
  rw [grownFor?, doubledCapacity?, if_neg hmax, if_pos hfits]
  rfl

/-- What growth does for more entries than the threshold allows. -/
structure GrowsLeast (s : Sizing) (len : Nat) : Prop where
  /-- It leads to the least greater capacity under which they fit, and leaves the load factor. -/
  least : ∀ t, s.grownFor? len = some t →
    IsLeast {c | s.Admits len c} t.capacity ∧ t = ofCapacity t.capacity s.loadFactor
  /-- It fails exactly when there is none. -/
  fails_iff : s.grownFor? len = none ↔ ∀ c, ¬ s.Admits len c
  /-- One doubling is enough for one entry more, unless no entry was allowed at all. -/
  once : s.capacity < maxCapacity → 1 ≤ s.threshold → len = s.threshold + 1 →
    s.grownFor? len = some (ofCapacity (2 * s.capacity) s.loadFactor)
  /-- The insertion that brings a table to so many entries ends with a result if there is such a capacity,
  and fails to grow the table otherwise. -/
  insertion : ∀ {σ κ ν : Type} (E : EntryLayout σ κ ν) (t : Table σ) (index : Nat) (slot : σ),
    t.sizing = s → t.len + 1 = len →
      ((∃ j, (t.insertAt E index slot).result = .ok j) ↔ ∃ c, s.Admits len c) ∧
      ((t.insertAt E index slot).result = .error .capacityOverflow ↔ ∀ c, ¬ s.Admits len c)

theorem Valid.growsLeast (h : s.Valid) (hlen : s.threshold < len) : s.GrowsLeast len where
  least t hgrown := by
    refine ⟨h.isLeast_grownFor? hlen hgrown, ?_⟩
    obtain ⟨capacity, -, rfl⟩ := Option.map_eq_some_iff.mp hgrown
    rfl
  fails_iff := h.grownFor?_eq_none_iff hlen
  once hroom hsome hone := hone ▸ h.grownFor?_succ_threshold hroom hsome
  insertion E t index slot hsizing hcount := by
    have hexceeded : t.sizing.exceededBy (t.len + 1) = true :=
      decide_eq_true (by rw [hcount]; exact hsizing ▸ hlen)
    have hgrow : t.sizing.grownFor? (t.len + 1) = s.grownFor? len := by rw [hsizing, hcount]
    rw [← not_iff_not, not_exists, not_exists, ← h.grownFor?_eq_none_iff hlen, ← hgrow]
    simp only [Table.insertAt, Table.setAt, hexceeded, if_true]
    cases t.sizing.grownFor? (t.len + 1) with
    | none => exact ⟨⟨fun _ => rfl, nofun⟩, ⟨fun _ => rfl, fun _ => rfl⟩⟩
    | some grown => exact ⟨⟨fun hnever => absurd rfl (hnever _), nofun⟩, ⟨nofun, nofun⟩⟩

end Sizing

/-- **Thresholds and growth are exact.** -/
theorem thresholds_and_growth_exact :
    (∀ loadFactor : Single, loadFactor.InOpenUnitInterval →
      (∃ (m : Nat) (e : Int), m < 2 ^ 24 ∧ loadFactor.value = m * 2 ^ e) ∧
        ∀ capacity, IsCapacity capacity → ExactThreshold loadFactor capacity) ∧
      ∀ s : Sizing, s.Valid → ∀ len, s.threshold < len → s.GrowsLeast len :=
  ⟨fun loadFactor h => ⟨⟨loadFactor.mantissa, loadFactor.exponent, loadFactor.mantissa_lt, h.value_eq⟩,
      fun _ hc => exactThreshold h hc⟩,
    fun _ h _ hlen => h.growsLeast hlen⟩

/-- The greatest load factor that is below one still leaves slots vacant in the greatest table. Under a load
factor of about one hundredth a table of eight slots allows no entry, and is doubled four times for the
first; under the least load factor of all it can never grow. -/
theorem thresholds_and_growth_exact_extremes :
    let greatest : Single := ⟨0x3f7fffff⟩
    let hundredth : Single := ⟨0x3c23d70a⟩
    let least : Single := ⟨1⟩
    greatest.InOpenUnitInterval ∧ IsCapacity maxCapacity ∧ ExactThreshold greatest maxCapacity ∧
      threshold maxCapacity greatest = 2 ^ 62 - 2 ^ 38 ∧
      (Sizing.ofCapacity 8 hundredth).Valid ∧ (Sizing.ofCapacity 8 hundredth).threshold < 1 ∧
      (Sizing.ofCapacity 8 hundredth).GrowsLeast 1 ∧
      (Sizing.ofCapacity 8 hundredth).grownFor? 1 = some (.ofCapacity 128 hundredth) ∧
      (Sizing.ofCapacity 8 least).Valid ∧ (Sizing.ofCapacity 8 least).threshold < 1 ∧
      (Sizing.ofCapacity 8 least).GrowsLeast 1 ∧ (Sizing.ofCapacity 8 least).grownFor? 1 = none := by
  intro greatest hundredth least
  have hgreatest : greatest.InOpenUnitInterval := by decide +kernel
  have hmax : IsCapacity maxCapacity := ⟨62, by decide, by decide, rfl⟩
  have hmin : IsCapacity 8 := ⟨3, by decide, by decide, rfl⟩
  have hhundredth : (Sizing.ofCapacity 8 hundredth).Valid :=
    Sizing.valid_ofCapacity hmin (by decide +kernel)
  have hleast : (Sizing.ofCapacity 8 least).Valid := Sizing.valid_ofCapacity hmin (by decide +kernel)
  have hfull : (Sizing.ofCapacity 8 hundredth).threshold < 1 := by decide +kernel
  have hfull' : (Sizing.ofCapacity 8 least).threshold < 1 := by decide +kernel
  obtain ⟨hthresholds, hgrowth⟩ := thresholds_and_growth_exact
  exact ⟨hgreatest, hmax, (hthresholds greatest hgreatest).2 _ hmax, by decide +kernel, hhundredth, hfull,
    hgrowth _ hhundredth 1 hfull, by decide +kernel, hleast, hfull', hgrowth _ hleast 1 hfull',
    by decide +kernel⟩

end LinearProbing
