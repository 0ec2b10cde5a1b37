import LinearProbing.Numeric.Double
import Mathlib.Algebra.Order.Field.Power
import Mathlib.Data.Rat.Floor
import Mathlib.Tactic.Linarith
import Mathlib.Tactic.NormNum
import Mathlib.Tactic.Positivity
import Mathlib.Tactic.Ring

/-!
# LinearProbing.Proofs.Numeric.Double

**Rounding to double precision loses nothing that fits.** A number with a significand of at most 53 bits
is its own nearest double (`nearest_of_lt`). The exponent of a positive number is the one power of two
that it lies above (`exponent_spec`, `exponent_eq`); scaled by it, such a number is an integer.
-/

namespace LinearProbing.Double

theorem two_zpow_lt_iff {a b : Int} : (2 : Rat) ^ a < 2 ^ b ↔ a < b :=
  zpow_lt_zpow_iff_right₀ (by norm_num)

theorem two_zpow_pos (a : Int) : (0 : Rat) < 2 ^ a := by positivity

theorem two_zpow_add (a b : Int) : (2 : Rat) ^ (a + b) = 2 ^ a * 2 ^ b :=
  zpow_add₀ (by norm_num) a b

theorem natCast_log2 {n : Nat} (h : n ≠ 0) :
    (2 : Rat) ^ (n.log2 : Int) ≤ n ∧ (n : Rat) < 2 ^ ((n.log2 : Int) + 1) := by
  constructor
  · have := Nat.log2_self_le h
    exact_mod_cast this
  · have := Nat.lt_log2_self (n := n)
    exact_mod_cast this

/-! ### The exponent -/

/-- A positive number lies between the power of two of its exponent and the next one. -/
theorem exponent_spec {x : Rat} (hx : 0 < x) :
    (2 : Rat) ^ exponent x ≤ x ∧ x < 2 ^ (exponent x + 1) := by
  have hnum : x.num.natAbs ≠ 0 := by simpa using hx.ne'
  have habs : (x.num.natAbs : Rat) = x.num := by
    have := Int.natAbs_of_nonneg (Rat.num_pos.mpr hx).le
    rw [← Int.cast_natCast, this]
  have hquot : x = (x.num.natAbs : Rat) / x.den := by rw [habs, Rat.num_div_den]
  have hden : (0 : Rat) < x.den := by exact_mod_cast x.den_pos
  obtain ⟨hn1, hn2⟩ := natCast_log2 hnum
  obtain ⟨hd1, hd2⟩ := natCast_log2 x.den_nz
  unfold exponent
  dsimp only
  generalize (x.num.natAbs.log2 : Int) = n at hn1 hn2 ⊢
  generalize (x.den.log2 : Int) = d at hd1 hd2 ⊢
  have hlow : (2 : Rat) ^ (n - d - 1) ≤ x := by
    rw [hquot, le_div_iff₀ hden]
    calc (2 : Rat) ^ (n - d - 1) * x.den
        ≤ 2 ^ (n - d - 1) * 2 ^ (d + 1) :=
          mul_le_mul_of_nonneg_left hd2.le (two_zpow_pos _).le
      _ = 2 ^ n := by rw [← two_zpow_add]; congr 1; ring
      _ ≤ x.num.natAbs := hn1
  have hhigh : x < (2 : Rat) ^ (n - d + 1) := by
    rw [hquot, div_lt_iff₀ hden]
    calc (x.num.natAbs : Rat)
        < 2 ^ (n + 1) := hn2
      _ = 2 ^ (n - d + 1) * 2 ^ d := by rw [← two_zpow_add]; congr 1; ring
      _ ≤ 2 ^ (n - d + 1) * x.den := mul_le_mul_of_nonneg_left hd1 (two_zpow_pos _).le
  split
  · next h => exact ⟨hlow, by rwa [sub_add_cancel]⟩
  · next h => exact ⟨not_lt.mp h, hhigh⟩

theorem exponent_eq {x : Rat} {a : Int} (hlow : (2 : Rat) ^ a ≤ x) (hhigh : x < 2 ^ (a + 1)) :
    exponent x = a := by
  obtain ⟨h1, h2⟩ := exponent_spec (lt_of_lt_of_le (two_zpow_pos a) hlow)
  have hle : exponent x < a + 1 := two_zpow_lt_iff.mp (lt_of_le_of_lt h1 hhigh)
  have hge : a < exponent x + 1 := two_zpow_lt_iff.mp (lt_of_le_of_lt hlow h2)
  omega

/-- The exponent of a scaled integer is that of the scale and of the leading bit. -/
theorem exponent_natCast_mul {m : Nat} (hm : m ≠ 0) (e : Int) :
    exponent (m * 2 ^ e) = m.log2 + e := by
  obtain ⟨h1, h2⟩ := natCast_log2 hm
  refine exponent_eq ?_ ?_
  · rw [two_zpow_add]
    exact mul_le_mul_of_nonneg_right h1 (two_zpow_pos e).le
  · rw [add_right_comm, two_zpow_add]
    exact mul_lt_mul_of_pos_right h2 (two_zpow_pos e)

/-! ### Exact results -/

theorem roundTiesToEven_intCast (n : Int) : roundTiesToEven n = n := by
  simp [roundTiesToEven, Rat.floor_intCast]

/-- **A significand of at most 53 bits is kept as it is.** -/
theorem nearest_of_lt {m : Nat} (hm : m < 2 ^ 53) (e : Int) :
    nearest (m * 2 ^ e) = m * 2 ^ e := by
  by_cases hz : m = 0
  · subst hz
    simp [nearest]
  have hpos : (0 : Rat) < m * 2 ^ e := by positivity
  unfold nearest
  rw [if_neg (not_le.mpr hpos), exponent_natCast_mul hz]
  dsimp only [precision]
  have hlog : m.log2 < 53 := (Nat.log2_lt hz).mpr hm
  obtain ⟨k, hk⟩ : ∃ k : Nat, (m.log2 : Int) + k = 52 := ⟨52 - m.log2, by omega⟩
  have hunit : (m.log2 : Int) + e - (53 - 1 : Nat) = e - k := by omega
  rw [hunit]
  -- scaled by the unit in the last place, the number is an integer
  have hscaled : (m : Rat) * 2 ^ e / 2 ^ (e - k) = ((m * 2 ^ k : Nat) : Int) := by
    rw [mul_div_assoc, ← zpow_sub₀ (by norm_num), sub_sub_cancel, zpow_natCast]
    push_cast
    ring
  rw [hscaled, roundTiesToEven_intCast]
  push_cast
  rw [mul_assoc, ← zpow_natCast (2 : Rat) k, ← two_zpow_add]
  congr 2
  ring

theorem ofNat_two_pow (k : Nat) : ofNat (2 ^ k) = 2 ^ (k : Int) := by
  have h := nearest_of_lt (m := 1) (by norm_num) k
  simpa [ofNat] using h

end LinearProbing.Double
