import LinearProbing.Proofs.AssociativeCache.Refinement
import LinearProbing.Proofs.Hash.Mix
import Mathlib.Data.Int.CardIntervalMod
import Mathlib.Data.Nat.Count
import Mathlib.SetTheory.Cardinal.Finite

/-!
# LinearProbing.Proofs.Hash.Balance

**Homes are shared equally.** Every number below two to the width of a word is the hash of one word, since
spreading permutes the words (`bijOn_spread_int64`, `bijOn_spread_int32`). What a table or a cache reads of a
hash is its remainder by a power of two, and each remainder is left by equally many of these numbers
(`card_homeSlot`). So each slot is the home of equally many keys, under every mask, and each set of a cache is
selected by equally many (`Balanced`).
-/

namespace LinearProbing

/-! ### Words and their hashes -/

theorem spread_int64_bijective : Function.Bijective (SignedWord.spread : Int64 → UInt64) :=
  mix64Equiv.bijective.comp <| Function.bijective_iff_has_inverse.mpr
    ⟨UInt64.toInt64, Int64.toInt64_toUInt64, UInt64.toUInt64_toInt64⟩

theorem mix32_toUInt32_bijective : Function.Bijective fun key : Int32 => mix32 key.toUInt32 :=
  mix32Equiv.bijective.comp <| Function.bijective_iff_has_inverse.mpr
    ⟨UInt32.toInt32, Int32.toInt32_toUInt32, UInt32.toUInt32_toInt32⟩

theorem bijOn_spread_int64 :
    Set.BijOn (fun key : Int64 => (SignedWord.spread key).toNat) Set.univ (Set.Iio (2 ^ 64)) := by
  refine ⟨fun key _ => (SignedWord.spread key).toNat_lt, fun a _ b _ h => ?_, fun n hn => ?_⟩
  · exact spread_int64_bijective.injective (UInt64.toNat_inj.mp h)
  · obtain ⟨key, hkey⟩ := spread_int64_bijective.surjective (UInt64.ofNat n)
    exact ⟨key, trivial, (congrArg UInt64.toNat hkey).trans (UInt64.toNat_ofNat_of_lt' hn)⟩

theorem bijOn_spread_int32 :
    Set.BijOn (fun key : Int32 => (SignedWord.spread key).toNat) Set.univ (Set.Iio (2 ^ 32)) := by
  have hspread : ∀ key : Int32, (SignedWord.spread key).toNat = (mix32 key.toUInt32).toNat := fun _ =>
    UInt32.toNat_toUInt64 _
  simp only [hspread]
  refine ⟨fun key _ => (mix32 key.toUInt32).toNat_lt, fun a _ b _ h => ?_, fun n hn => ?_⟩
  · exact mix32_toUInt32_bijective.injective (UInt32.toNat_inj.mp h)
  · obtain ⟨key, hkey⟩ := mix32_toUInt32_bijective.surjective (UInt32.ofNat n)
    exact ⟨key, trivial, (congrArg UInt32.toNat hkey).trans (UInt32.toNat_ofNat_of_lt' hn)⟩

/-! ### Counting keys -/

section Counting

variable {κ : Type} {hash : κ → Nat} {size : Nat}

/-- If every number below a bound is the hash of one key, keys are counted by their hashes. -/
theorem card_of_bijOn (h : Set.BijOn hash Set.univ (Set.Iio size)) (p : Nat → Prop) [DecidablePred p] :
    Nat.card {key // p (hash key)} = Nat.count p size := by
  let place (key : {key // p (hash key)}) : {n // n < size ∧ p n} :=
    ⟨hash key, h.mapsTo trivial, key.2⟩
  have hplace : Function.Bijective place := by
    constructor
    · intro a b hab
      exact Subtype.ext (h.injOn trivial trivial (congrArg Subtype.val hab))
    · rintro ⟨n, hn, hp⟩
      obtain ⟨key, -, rfl⟩ := h.surjOn hn
      exact ⟨⟨key, hp⟩, rfl⟩
  rw [Nat.card_congr (Equiv.ofBijective place hplace), Nat.count_eq_card_filter_range]
  exact Nat.subtype_card _ fun n => by rw [Finset.mem_filter, Finset.mem_range]

/-- **Every slot is the home of equally many keys**, if the slots divide the hashes. -/
theorem card_homeSlot (h : Set.BijOn hash Set.univ (Set.Iio size)) {capacity slot : Nat}
    (hdvd : capacity ∣ size) (hslot : slot < capacity) :
    Nat.card {key // homeSlot (hash key) capacity = slot} = size / capacity := by
  have hmod : ∀ n, homeSlot n capacity = slot ↔ n ≡ slot [MOD capacity] := by
    intro n
    rw [homeSlot, Nat.ModEq, Nat.mod_eq_of_lt hslot]
  simp only [hmod]
  rw [card_of_bijOn h (· ≡ slot [MOD capacity]), Nat.count_modEq_card _ (Nat.zero_lt_of_lt hslot),
    Nat.mod_eq_zero_of_dvd hdvd, if_neg (Nat.not_lt_zero _), Nat.add_zero]

end Counting

/-- What a mask of the low bits keeps of a hash is its home in a table of as many slots as there are words
of these bits. -/
theorem homeIndex_eq_iff {κ : Type} [SignedWord κ] {key : κ} {slot : UInt64} {m : Nat} (hm : m ≤ 64) :
    homeIndex key (UInt64.ofNat (2 ^ m - 1)) = slot ↔
      homeSlot (SignedWord.spread key).toNat (2 ^ m) = slot.toNat := by
  have hmask : 2 ^ m - 1 < UInt64.size :=
    Nat.lt_of_lt_of_le (Nat.sub_one_lt (Nat.two_pow_pos m).ne') (Nat.pow_le_pow_right (by decide) hm)
  rw [homeIndex, homeSlot, ← UInt64.toNat_inj, UInt64.toNat_and, UInt64.toNat_ofNat_of_lt' hmask,
    Nat.and_two_pow_sub_one_eq_mod]

/-! ### Sets of a cache -/

namespace AssociativeCache

variable {κ ν : Type} [SignedWord κ] [BEq ν] {sets ways : Nat} {new : AssociativeCache κ ν}

/-- The number of sets is a power of two at all times, and sets have room. -/
theorem exists_numSets_eq (hnew : ofDimensions sets ways = .ok new) (ops : List (Operation κ ν)) :
    (∃ k, (finalState Operation.perform ops new).numSets = 2 ^ k) ∧
      0 < (finalState Operation.perform ops new).setSize := by
  obtain ⟨hnumSets, -, hrepresents⟩ := represents_of_ofDimensions hnew
  obtain ⟨-, hreached⟩ := forall₂_mirrors (fun op _ _ h => h.mirrors op) ops hrepresents
  obtain ⟨k, hk⟩ := exists_leastPowerOfTwo sets
  refine ⟨⟨k, ?_⟩, hreached.setSize_pos⟩
  rw [← hreached.numSets, (dimensions_finalState ops _).1, hnumSets, hk]

omit [BEq ν] in
theorem setStart_eq_iff {c : AssociativeCache κ ν} (hpos : 0 < c.setSize) {key : κ} {set : Nat} :
    c.setStart key = set * c.setSize ↔ homeSlot (SignedWord.spread key).toNat c.numSets = set :=
  Nat.mul_left_inj hpos.ne'

end AssociativeCache

/-! ### Balance -/

/-- The words of a width are spread evenly. -/
structure Balanced (κ : Type) [SignedWord κ] (width : Nat) : Prop where
  /-- Every number of the width is the hash of one word. -/
  hashes : Set.BijOn (fun key : κ => (SignedWord.spread key).toNat) Set.univ (Set.Iio (2 ^ width))
  /-- Under every mask, each slot that it leaves is the home of equally many keys. -/
  homes : ∀ m ≤ width, ∀ slot : UInt64, slot.toNat < 2 ^ m →
    Nat.card {key : κ // homeIndex key (UInt64.ofNat (2 ^ m - 1)) = slot} = 2 ^ (width - m)
  /-- Each set of a cache, whatever was done to it, is selected by equally many keys. -/
  sets : ∀ {ν : Type} [BEq ν] {sets ways : Nat} {new : AssociativeCache κ ν},
    AssociativeCache.ofDimensions sets ways = .ok new →
      ∀ ops : List (AssociativeCache.Operation κ ν),
        let c := finalState AssociativeCache.Operation.perform ops new
        c.numSets ≤ 2 ^ width → ∀ set < c.numSets,
          Nat.card {key : κ // c.setStart key = set * c.setSize} = 2 ^ width / c.numSets

theorem balanced_of_bijOn {κ : Type} [SignedWord κ] {width : Nat} (hwidth : width ≤ 64)
    (h : Set.BijOn (fun key : κ => (SignedWord.spread key).toNat) Set.univ (Set.Iio (2 ^ width))) :
    Balanced κ width where
  hashes := h
  homes m hm slot hslot := by
    simp only [homeIndex_eq_iff (hm.trans hwidth)]
    rw [card_homeSlot h (Nat.pow_dvd_pow 2 hm) hslot, Nat.pow_div hm Nat.two_pos]
  sets hnew ops := by
    intro c hfits set hset
    obtain ⟨⟨k, hk⟩, hpos⟩ := AssociativeCache.exists_numSets_eq hnew ops
    have hselects : ∀ key, c.setStart key = set * c.setSize ↔
        homeSlot (SignedWord.spread key).toNat c.numSets = set := fun _ =>
      AssociativeCache.setStart_eq_iff hpos
    simp only [hselects]
    refine card_homeSlot h ?_ hset
    rw [hk] at hfits ⊢
    exact Nat.pow_dvd_pow 2 ((Nat.pow_le_pow_iff_right (by decide)).mp hfits)

/-- **Spreading permutes the words**, so that homes and sets are shared equally. -/
theorem spread_balanced :
    Function.Bijective mix64 ∧ Function.Bijective (SignedWord.spread : Int64 → UInt64) ∧
      Balanced Int64 64 ∧ Balanced Int32 32 :=
  ⟨mix64Equiv.bijective, spread_int64_bijective, balanced_of_bijOn le_rfl bijOn_spread_int64,
    balanced_of_bijOn (by decide) bijOn_spread_int32⟩

/-- In a table of eight slots and in a cache of eight sets that has been used. -/
theorem spread_balanced_eight :
    let new : AssociativeCache Int32 Nat :=
      { slots := Array.replicate 32 ⟨0, none⟩, numSets := 8, setSize := 4, len := 0
        hits := 0, misses := 0, puts := 0 }
    let c := finalState AssociativeCache.Operation.perform [.insert 1 10, .get 1, .erase 1] new
    Nat.card {key : Int64 // homeIndex key 7 = 5} = 2 ^ 61 ∧
      Nat.card {key : Int32 // homeIndex key 7 = 5} = 2 ^ 29 ∧
      AssociativeCache.ofDimensions 5 3 = .ok new ∧ c.numSets = 8 ∧
      Nat.card {key : Int32 // c.setStart key = 5 * c.setSize} = 2 ^ 29 := by
  intro new c
  obtain ⟨-, -, longs, ints⟩ := spread_balanced
  have hnew : AssociativeCache.ofDimensions 5 3 = .ok new := by rfl
  have hsets : c.numSets = 8 := by decide +kernel
  have hfits : c.numSets ≤ 2 ^ 32 := hsets.trans_le (by decide)
  have hset : 5 < c.numSets := by rw [hsets]; decide
  have hcount := ints.sets hnew [.insert 1 10, .get 1, .erase 1] hfits 5 hset
  rw [hsets] at hcount
  exact ⟨longs.homes 3 (by decide) 5 (by decide), ints.homes 3 (by decide) 5 (by decide), hnew, hsets,
    hcount⟩

end LinearProbing
