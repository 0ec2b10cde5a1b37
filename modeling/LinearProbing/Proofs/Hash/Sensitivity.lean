import LinearProbing.Proofs.Hash.Mix
import Mathlib.Algebra.Group.Nat.Defs

/-!
# LinearProbing.Proofs.Hash.Sensitivity

**On which bits of a key its home depends.** The multiplication carries a change of one bit upwards, never
down, and the folds bring it down by a fixed distance: by 48 places in a word of 64 bits, by 16 in one of 32.
`DifferFrom` says what is the lowest place at which two words differ, and each step of the spreading moves it in
a known way (`DifferFrom.mul`, `DifferFrom.foldDown`). So a change of the bit 48 or a higher one reaches the
spread hash of whatever word 48 places lower, and no place below that (`differFrom_mix64`). Of the bits below
48, each is felt in the three lowest bits by some word.

Hence the home in a table of `2 ^ m` slots depends on the bits below `m + 48`, or `m + 16`, and on no others
(`homes_depend_below`): from `2 ^ 16` slots on these are all bits, and in smaller tables the highest ones are
ignored.
-/

namespace LinearProbing

/-! ### The lowest place at which two words differ -/

section DifferFrom

variable {w place n : Nat} {x y : BitVec w}

/-- Two words differ at a place and agree below it. -/
structure DifferFrom (place : Nat) (x y : BitVec w) : Prop where
  below : ∀ i < place, x.getLsbD i = y.getLsbD i
  differ : x.getLsbD place ≠ y.getLsbD place

theorem DifferFrom.lt (h : DifferFrom place x y) : place < w := by
  by_contra hle
  rw [Nat.not_lt] at hle
  exact h.differ (by rw [BitVec.getLsbD_of_ge x place hle, BitVec.getLsbD_of_ge y place hle])

/-- Flipping a bit changes that bit alone. -/
theorem differFrom_flip (x : BitVec w) (h : place < w) :
    DifferFrom place x (x ^^^ BitVec.ofNat w (2 ^ place)) where
  below i hi := by
    rw [BitVec.getLsbD_xor, BitVec.getLsbD_ofNat, Nat.testBit_two_pow_of_ne (Nat.ne_of_gt hi),
      Bool.and_false, Bool.xor_false]
  differ := by
    rw [BitVec.getLsbD_xor, BitVec.getLsbD_ofNat, Nat.testBit_two_pow_self, decide_eq_true h,
      Bool.and_true, Bool.xor_true]
    exact (Bool.not_ne_self _).symm

theorem setWidth_eq_iff : x.setWidth n = y.setWidth n ↔ ∀ i < n, x.getLsbD i = y.getLsbD i := by
  constructor
  · intro h i hi
    have hbit := congrArg (·.getLsbD i) h
    simpa [BitVec.getLsbD_setWidth, hi] using hbit
  · intro h
    refine BitVec.eq_of_getLsbD_eq fun i hi => ?_
    simpa [BitVec.getLsbD_setWidth, hi] using h i hi

/-- The low bits of a product only depend on the low bits of the factors. -/
theorem getLsbD_mul_congr (c : BitVec w) (hn : n ≤ w) (h : ∀ i < n, x.getLsbD i = y.getLsbD i) :
    ∀ i < n, (x * c).getLsbD i = (y * c).getLsbD i := by
  rw [← setWidth_eq_iff] at h ⊢
  rw [BitVec.setWidth_mul _ _ hn, BitVec.setWidth_mul _ _ hn, h]

/-- **A multiplication that can be undone** carries a change upwards only, and does not lose it. -/
theorem DifferFrom.mul (h : DifferFrom place x y) {c inverse : BitVec w} (hinverse : c * inverse = 1#w) :
    DifferFrom place (x * c) (y * c) where
  below := getLsbD_mul_congr c (Nat.le_of_lt h.lt) h.below
  differ heq := by
    -- if the products agreed at this place too, undoing the multiplication would show that the factors do
    have hproducts : ∀ i < place + 1, (x * c).getLsbD i = (y * c).getLsbD i := by
      intro i hi
      rcases Nat.lt_or_eq_of_le (Nat.le_of_lt_succ hi) with hlt | rfl
      · exact getLsbD_mul_congr c (Nat.le_of_lt h.lt) h.below i hlt
      · exact heq
    have hfactors := getLsbD_mul_congr inverse h.lt hproducts place (Nat.lt_succ_self place)
    rw [BitVec.mul_assoc, BitVec.mul_assoc, hinverse, BitVec.mul_one, BitVec.mul_one] at hfactors
    exact h.differ hfactors

theorem getLsbD_foldDown (places i : Nat) (x : BitVec w) :
    (foldDown places x).getLsbD i = (x.getLsbD i ^^ x.getLsbD (places + i)) := by
  rw [foldDown, BitVec.getLsbD_xor, BitVec.getLsbD_ushiftRight]

/-- **A fold** brings a change down by so many places. -/
theorem DifferFrom.foldDown (h : DifferFrom place x y) {places : Nat} (hpos : 0 < places)
    (hle : places ≤ place) :
    DifferFrom (place - places) (foldDown places x) (foldDown places y) where
  below i hi := by
    rw [getLsbD_foldDown, getLsbD_foldDown, h.below i (by omega), h.below (places + i) (by omega)]
  differ := by
    rw [getLsbD_foldDown, getLsbD_foldDown, h.below (place - places) (by omega),
      Nat.add_sub_cancel' hle]
    intro heq
    exact h.differ (Bool.xor_right_inj.mp heq)

theorem DifferFrom.setWidth (h : DifferFrom place x y) (hn : w ≤ n) :
    DifferFrom place (x.setWidth n) (y.setWidth n) := by
  have hplace := Nat.lt_of_lt_of_le h.lt hn
  refine ⟨fun i hi => ?_, ?_⟩
  · rw [BitVec.getLsbD_setWidth, BitVec.getLsbD_setWidth, h.below i hi]
  · rw [BitVec.getLsbD_setWidth, BitVec.getLsbD_setWidth, decide_eq_true hplace, Bool.true_and,
      Bool.true_and]
    exact h.differ

end DifferFrom

/-! ### What a mask keeps -/

section Masks

variable {a b : UInt64} {place m m' : Nat}

/-- The mask of the `m` low bits keeps these bits. -/
theorem getLsbD_and_mask (hm : m ≤ 64) (i : Nat) :
    (a &&& UInt64.ofNat (2 ^ m - 1)).toBitVec.getLsbD i = (a.toBitVec.getLsbD i && decide (i < m)) := by
  rw [UInt64.toBitVec_and, UInt64.toBitVec_ofNat', BitVec.getLsbD_and, BitVec.getLsbD_ofNat,
    Nat.testBit_two_pow_sub_one]
  by_cases hi : i < m
  · rw [decide_eq_true hi, decide_eq_true (Nat.lt_of_lt_of_le hi hm), Bool.and_true]
  · rw [decide_eq_false hi, Bool.and_false]

theorem and_mask_eq_iff (hm : m ≤ 64) :
    a &&& UInt64.ofNat (2 ^ m - 1) = b &&& UInt64.ofNat (2 ^ m - 1) ↔
      ∀ i < m, a.toBitVec.getLsbD i = b.toBitVec.getLsbD i := by
  rw [← UInt64.toBitVec_inj]
  constructor
  · intro h i hi
    have hbit := congrArg (·.getLsbD i) h
    simpa only [getLsbD_and_mask hm, decide_eq_true hi, Bool.and_true] using hbit
  · intro h
    refine BitVec.eq_of_getLsbD_eq fun i _ => ?_
    rw [getLsbD_and_mask hm, getLsbD_and_mask hm]
    by_cases hi : i < m
    · rw [h i hi]
    · rw [decide_eq_false hi, Bool.and_false, Bool.and_false]

/-- A mask shows a change if it keeps the lowest place that is changed. -/
theorem DifferFrom.and_mask_ne_iff (h : DifferFrom place a.toBitVec b.toBitVec) (hm : m ≤ 64) :
    a &&& UInt64.ofNat (2 ^ m - 1) ≠ b &&& UInt64.ofNat (2 ^ m - 1) ↔ place < m := by
  rw [ne_eq, and_mask_eq_iff hm]
  constructor
  · intro hne
    by_contra hle
    exact hne fun i hi => h.below i (by omega)
  · intro hlt heq
    exact h.differ (heq place hlt)

/-- What a mask shows, a wider one shows. -/
theorem and_mask_ne_of_le (hle : m ≤ m') (hm' : m' ≤ 64)
    (h : a &&& UInt64.ofNat (2 ^ m - 1) ≠ b &&& UInt64.ofNat (2 ^ m - 1)) :
    a &&& UInt64.ofNat (2 ^ m' - 1) ≠ b &&& UInt64.ofNat (2 ^ m' - 1) := by
  rw [ne_eq, and_mask_eq_iff (hle.trans hm')] at h
  rw [ne_eq, and_mask_eq_iff hm']
  exact fun heq => h fun i hi => heq i (Nat.lt_of_lt_of_le hi hle)

end Masks

/-! ### Spread hashes -/

/-- From the bit 48 on, flipping a bit changes the spread hash of every word 48 places lower. -/
theorem differFrom_mix64 (hash : UInt64) {b : Nat} (hb : 48 ≤ b) (hlt : b < 64) :
    DifferFrom (b - 48) (mix64 hash).toBitVec (mix64 (hash ^^^ UInt64.ofNat (2 ^ b))).toBitVec := by
  have hinverse : golden64.toBitVec * golden64Inverse.toBitVec = 1#64 := by decide
  have hflip := differFrom_flip hash.toBitVec hlt
  have hproduct := hflip.mul hinverse
  have hfolded := (hproduct.foldDown (by decide) (show 32 ≤ b by omega)).foldDown (by decide)
    (show 16 ≤ b - 32 by omega)
  rw [toBitVec_mix64, toBitVec_mix64, UInt64.toBitVec_xor, UInt64.toBitVec_ofNat']
  rwa [Nat.sub_sub] at hfolded

/-- From the bit 16 on, flipping a bit changes the spread hash of every word 16 places lower. -/
theorem differFrom_mix32 (word : UInt32) {b : Nat} (hb : 16 ≤ b) (hlt : b < 32) :
    DifferFrom (b - 16) (mix32 word).toBitVec (mix32 (word ^^^ UInt32.ofNat (2 ^ b))).toBitVec := by
  have hinverse : golden32.toBitVec * golden32Inverse.toBitVec = 1#32 := by decide
  have hfolded := ((differFrom_flip word.toBitVec hlt).mul hinverse).foldDown (by decide) hb
  rw [toBitVec_mix32, toBitVec_mix32, UInt32.toBitVec_xor, UInt32.toBitVec_ofNat']
  exact hfolded

/-- A hash that feels every bit below 48 in the three lowest bits that it is spread to. -/
def sensitiveHash : UInt64 := 0x10F0F07A89BBDDD9

theorem sensitiveHash_feels : ∀ b < 48,
    mix64 sensitiveHash &&& UInt64.ofNat (2 ^ 3 - 1) ≠
      mix64 (sensitiveHash ^^^ UInt64.ofNat (2 ^ b)) &&& UInt64.ofNat (2 ^ 3 - 1) := by
  decide +kernel

/-- The word zero feels every bit below 16. -/
theorem zero_feels : ∀ b < 16,
    (mix32 0).toUInt64 &&& UInt64.ofNat (2 ^ 3 - 1) ≠
      (mix32 (0 ^^^ UInt32.ofNat (2 ^ b))).toUInt64 &&& UInt64.ofNat (2 ^ 3 - 1) := by
  decide +kernel

/-! ### Homes -/

/-- Flipping the bit `b` is felt under the mask of the `m` low bits by some word just if the mask goes up to the
place `b - reach`, if that is the lowest one that changes, in every word. If there is no such place, it is felt when
some word feels it in its three lowest bits. -/
theorem exists_and_mask_ne_iff {α : Type} [Nonempty α] {spread : α → UInt64} {flip : α → α}
    {reach m b : Nat} (hm : 3 ≤ m) (hm' : m ≤ 62)
    (hhigh : reach ≤ b → ∀ word,
      DifferFrom (b - reach) (spread word).toBitVec (spread (flip word)).toBitVec)
    (hlow : b < reach → ∃ word,
      spread word &&& UInt64.ofNat (2 ^ 3 - 1) ≠ spread (flip word) &&& UInt64.ofNat (2 ^ 3 - 1)) :
    (∃ word, spread word &&& UInt64.ofNat (2 ^ m - 1) ≠ spread (flip word) &&& UInt64.ofNat (2 ^ m - 1)) ↔
      b < m + reach := by
  have hm64 : m ≤ 64 := hm'.trans (by decide)
  by_cases hreach : b < reach
  · obtain ⟨word, hword⟩ := hlow hreach
    exact ⟨fun _ => Nat.lt_add_left m hreach, fun _ => ⟨word, and_mask_ne_of_le hm hm64 hword⟩⟩
  · rw [Nat.not_lt] at hreach
    have hkept := fun word => (hhigh hreach word).and_mask_ne_iff hm64
    rw [exists_congr hkept, exists_const]
    omega

/-- **The home of a key in a table of `2 ^ m` slots depends on the bits below `m + 48`** of its hash, and on no
others; for keys of 32 bits, on those below `m + 16`. -/
theorem homes_depend_below {m : Nat} (hm : 3 ≤ m) (hm' : m ≤ 62) :
    (∀ b < 64, (∃ hash : UInt64, mix64 hash &&& UInt64.ofNat (2 ^ m - 1) ≠
        mix64 (hash ^^^ UInt64.ofNat (2 ^ b)) &&& UInt64.ofNat (2 ^ m - 1)) ↔ b < m + 48) ∧
      (∀ b < 64, (∃ key : Int64, homeIndex key (UInt64.ofNat (2 ^ m - 1)) ≠
        homeIndex (key ^^^ Int64.ofNat (2 ^ b)) (UInt64.ofNat (2 ^ m - 1))) ↔ b < m + 48) ∧
      ∀ b < 32, (∃ key : Int32, homeIndex key (UInt64.ofNat (2 ^ m - 1)) ≠
        homeIndex (key ^^^ Int32.ofNat (2 ^ b)) (UInt64.ofNat (2 ^ m - 1))) ↔ b < m + 16 := by
  refine ⟨fun b hb => ?_, fun b hb => ?_, fun b hb => ?_⟩
  · exact exists_and_mask_ne_iff hm hm' (fun hreach hash => differFrom_mix64 hash hreach hb)
      (fun hreach => ⟨sensitiveHash, sensitiveHash_feels b hreach⟩)
  · exact exists_and_mask_ne_iff hm hm' (fun hreach key => differFrom_mix64 key.toUInt64 hreach hb)
      (fun hreach => ⟨sensitiveHash.toInt64, sensitiveHash_feels b hreach⟩)
  · exact exists_and_mask_ne_iff hm hm'
      (fun hreach key => (differFrom_mix32 key.toUInt32 hreach hb).setWidth (by decide))
      (fun hreach => ⟨0, zero_feels b hreach⟩)

/-- Among eight slots the bit 50 moves the home of some hash, and the bit 51 moves none; among `2 ^ 16` slots
every bit moves some home. -/
theorem homes_depend_below_eight :
    (∃ hash : UInt64, mix64 hash &&& 7 ≠ mix64 (hash ^^^ UInt64.ofNat (2 ^ 50)) &&& 7) ∧
      (∀ key : Int64, homeIndex key 7 = homeIndex (key ^^^ Int64.ofNat (2 ^ 51)) 7) ∧
      (∀ key : Int32, homeIndex key 7 = homeIndex (key ^^^ Int32.ofNat (2 ^ 19)) 7) ∧
      ∀ b < 64, ∃ key : Int64, homeIndex key 0xFFFF ≠ homeIndex (key ^^^ Int64.ofNat (2 ^ b)) 0xFFFF := by
  obtain ⟨hashes, longs, ints⟩ := @homes_depend_below 3 (by decide) (by decide)
  obtain ⟨-, wide, -⟩ := @homes_depend_below 16 (by decide) (by decide)
  refine ⟨(hashes 50 (by decide)).mpr (by decide), ?_, ?_, fun b hb => (wide b hb).mpr (by omega)⟩
  · simpa using mt (longs 51 (by decide)).mp (by decide)
  · simpa using mt (ints 19 (by decide)).mp (by decide)

/-- Not every bit moves a home: among eight slots the highest bit of a hash moves none. -/
theorem homes_ignore_highest_bit :
    (¬ ∀ m, 3 ≤ m → m ≤ 62 → ∀ b < 64, ∃ hash : UInt64, mix64 hash &&& UInt64.ofNat (2 ^ m - 1) ≠
        mix64 (hash ^^^ UInt64.ofNat (2 ^ b)) &&& UInt64.ofNat (2 ^ m - 1)) ∧
      ¬ ∀ m, 3 ≤ m → m ≤ 32 → ∀ b < 32, ∃ key : Int32, homeIndex key (UInt64.ofNat (2 ^ m - 1)) ≠
        homeIndex (key ^^^ Int32.ofNat (2 ^ b)) (UInt64.ofNat (2 ^ m - 1)) := by
  constructor
  · intro hall
    obtain ⟨hash, hmoved⟩ := hall 3 (by decide) (by decide) 63 (by decide)
    have hchange := differFrom_mix64 hash (b := 63) (by decide) (by decide)
    exact absurd ((hchange.and_mask_ne_iff (by decide)).mp hmoved) (by decide)
  · intro hall
    obtain ⟨key, hmoved⟩ := hall 3 (by decide) (by decide) 31 (by decide)
    have hchange := differFrom_mix32 key.toUInt32 (b := 31) (by decide) (by decide)
    have hwidened := hchange.setWidth (n := 64) (by decide)
    exact absurd ((DifferFrom.and_mask_ne_iff hwidened (by decide)).mp hmoved) (by decide)

end LinearProbing
