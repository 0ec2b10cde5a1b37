import LinearProbing.Proofs.Capacity.ClosedForm
import LinearProbing.Proofs.Contents

/-!
# LinearProbing.Proofs.Capacity.Compaction

**Compaction finds the least sufficient capacity, and needs no more than 64 bits for it.** It rounds a
quotient of two numbers in double precision, takes the next power of two and goes on by doubling. As long as
the entries are within the threshold of a table, none of these goes beyond the capacity that the table has
(`CompactsToLeast`): rounding the quotient may take it above the exact one, but never above a power of two.

So a compaction moves a container that was reached into the least table that holds it, keeps what is in it,
and another compaction does nothing (`SettledBy`).
-/

namespace LinearProbing

variable {loadFactor : Single} {capacity len k : Nat}

/-! ### The search for a capacity -/

/-- The powers of two, not below `minCapacity`, under which so many entries fit. -/
def Sufficient (loadFactor : Single) (len capacity : Nat) : Prop :=
  (∃ k, capacity = 2 ^ k) ∧ minCapacity ≤ capacity ∧ len ≤ threshold capacity loadFactor

theorem isLeast_sufficient (h : loadFactor.InOpenUnitInterval) (len : Nat) :
    IsLeast {c | Sufficient loadFactor len c} (neededCapacity loadFactor len) := by
  constructor
  · obtain ⟨k, hk⟩ := exists_neededCapacity loadFactor len
    rw [hk]
    exact ⟨⟨k, rfl⟩, (neededCapacity_le_iff h).mp hk.le⟩
  · rintro _ ⟨⟨k, rfl⟩, hsufficient⟩
    exact (neededCapacity_le_iff h).mpr hsufficient

/-- Doubling leads from one capacity to the first under which so many entries fit, and each capacity on the
way is held by a word of 64 bits. -/
inductive DoublesTo (loadFactor : Single) (len : Nat) : Nat → Nat → Prop
  | enough {capacity : Nat} (fits : len ≤ threshold capacity loadFactor) :
      DoublesTo loadFactor len capacity capacity
  | twice {capacity result : Nat} (full : threshold capacity loadFactor < len)
      (word : 2 * capacity < 2 ^ 64) (rest : DoublesTo loadFactor len (2 * capacity) result) :
      DoublesTo loadFactor len capacity result

/-- From below, doubling ends at the needed capacity. -/
theorem doublesTo_neededCapacity (h : loadFactor.InOpenUnitInterval) (hmin : minCapacity ≤ 2 ^ k)
    (hlow : 2 ^ k ≤ neededCapacity loadFactor len) (hword : neededCapacity loadFactor len < 2 ^ 64) :
    DoublesTo loadFactor len (2 ^ k) (neededCapacity loadFactor len) := by
  obtain ⟨j, hj⟩ := exists_neededCapacity loadFactor len
  rw [hj] at hlow hword ⊢
  have hkj : k ≤ j := (Nat.pow_le_pow_iff_right (by decide)).mp hlow
  obtain ⟨n, rfl⟩ := Nat.exists_eq_add_of_le hkj
  clear hlow hkj
  -- by induction on the number of doublings that are left
  induction n generalizing k with
  | zero => exact .enough ((neededCapacity_le_iff h).mp hj.le).2
  | succ n ih =>
      have hnext : k + (n + 1) = (k + 1) + n := by omega
      have hlt : 2 ^ k < 2 ^ (k + (n + 1)) := Nat.pow_lt_pow_right (by decide) (by omega)
      have hle : 2 ^ (k + 1) ≤ 2 ^ (k + (n + 1)) := Nat.pow_le_pow_right (by decide) (by omega)
      have hdouble : 2 * 2 ^ k = 2 ^ (k + 1) := (Nat.pow_succ').symm
      refine .twice (Nat.lt_of_not_le fun hfits => ?_) (hdouble ▸ hle.trans_lt hword) ?_
      · have hneeded := (neededCapacity_le_iff h).mpr ⟨hmin, hfits⟩
        omega
      · rw [hnext] at hj hword ⊢
        rw [hdouble]
        exact ih (by omega) hword hj

/-- What compaction finds for `len` entries in a table with a capacity. -/
structure CompactsToLeast (loadFactor : Single) (capacity len : Nat) : Prop where
  /-- The rounded quotient is the number of slots of some table, so it is a size as it is. -/
  ideal_le : Sizing.idealCapacity loadFactor len ≤ maxCapacity
  /-- So is the power of two at which the search begins. -/
  guess_le : leastPowerOfTwo (max (Sizing.idealCapacity loadFactor len) minCapacity) ≤ maxCapacity
  /-- The search ends with a sizing, without an overflow, -/
  found : (Sizing.ofCapacity capacity loadFactor).compactedFor? len =
    some (.ofCapacity (neededCapacity loadFactor len) loadFactor)
  /-- and none of the capacities on the way leaves the words. -/
  doubles : DoublesTo loadFactor len
    (leastPowerOfTwo (max (Sizing.idealCapacity loadFactor len) minCapacity))
    (neededCapacity loadFactor len)
  /-- It ends at the least capacity under which the entries fit. -/
  least : IsLeast {c | Sufficient loadFactor len c} (neededCapacity loadFactor len)
  capacity_le : neededCapacity loadFactor len ≤ capacity

/-- **Compaction finds the least sufficient capacity.** -/
theorem compactsToLeast (h : loadFactor.InOpenUnitInterval) (hc : IsCapacity capacity)
    (hlen : (len : Int) ≤ ((capacity : Rat) * loadFactor.value).floor) :
    CompactsToLeast loadFactor capacity len := by
  have hvalid := Sizing.valid_ofCapacity hc h
  have hfits : len ≤ (Sizing.ofCapacity capacity loadFactor).threshold := by
    rw [hvalid.threshold_eq]
    exact Int.ofNat_le.mp (hlen.trans (Int.self_le_toNat _))
  have hneeded : neededCapacity loadFactor len ≤ capacity := hvalid.neededCapacity_le_iff.mpr hfits
  have hmax := hneeded.trans hc.le_max
  have hguess := leastPowerOfTwo_idealCapacity_le h len
  refine ⟨(idealCapacity_le h len).trans hmax, hguess.trans hmax, hvalid.compactedFor?_eq_some hfits, ?_,
    isLeast_sufficient h len, hneeded⟩
  -- the guess is a power of two up to the needed capacity, from which the doublings start
  obtain ⟨k, hk⟩ := exists_leastPowerOfTwo (max (Sizing.idealCapacity loadFactor len) minCapacity)
  have hmin := (Nat.le_max_right ..).trans
    (le_leastPowerOfTwo (max (Sizing.idealCapacity loadFactor len) minCapacity))
  rw [hk] at hguess hmin ⊢
  exact doublesTo_neededCapacity h hmin hguess (hmax.trans_lt (by decide))

/-! ### Tables -/

/-- What a compaction does to a container in a state `s`. -/
structure SettledBy {τ σ ε : Type} (table : τ → Table σ) (contents : τ → List ε)
    (compact : τ → Change τ Unit) (s : τ) : Prop where
  result : (compact s).result = .ok ()
  /-- It keeps what is in the container, up to order. -/
  contents : (contents (compact s).state).Perm (contents s)
  len : (table (compact s).state).len = (table s).len
  /-- It leaves the least capacity under which the entries fit, -/
  least : IsLeast {c | Sufficient (table s).sizing.loadFactor (table s).len c}
    (table (compact s).state).capacity
  /-- with the same load factor, and the threshold that follows from both. -/
  sizing : (table (compact s).state).sizing =
    .ofCapacity (table (compact s).state).capacity (table s).sizing.loadFactor
  /-- It never enlarges the table. -/
  capacity_le : (table (compact s).state).capacity ≤ (table s).capacity
  len_le : (table (compact s).state).len ≤ (table (compact s).state).sizing.threshold
  /-- Another compaction does nothing, and reports nothing. -/
  again : compact (compact s).state = .done (compact s).state ()

namespace Table

variable {σ κ ν : Type} {E : EntryLayout σ κ ν} {hash : κ → UInt64} {storable : κ → ν → Prop} {t : Table σ}

/-- A table that has the capacity that its entries need is not compacted. -/
theorem Fits.compact_eq_done (h : t.Fits)
    (hneeded : t.capacity = neededCapacity t.sizing.loadFactor t.len) :
    t.compact E = .done t () := by
  rw [Table.compact, h.sizing.compactedFor?_eq_some h.len_le]
  exact if_neg (hneeded ▸ lt_irrefl _)

theorem WellFormed.settledBy [BEq κ] [EquivBEq κ] (h : t.WellFormed E hash) (hE : E.Lawful hash storable)
    (hlen : t.len ≤ t.sizing.threshold) : SettledBy id (entries E) (Table.compact E) t := by
  have hfits : t.Fits := ⟨h.sizing, hlen⟩
  have hcompacts := hfits.compact (E := E)
  have hsizing : (t.compact E).state.sizing =
      .ofCapacity (t.compact E).state.capacity t.sizing.loadFactor := by
    rw [← hcompacts.loadFactor]
    exact hcompacts.fits.sizing.eq_ofCapacity
  -- a table that has the needed capacity is not rebuilt
  have hagain : (t.compact E).state.capacity =
      neededCapacity (t.compact E).state.sizing.loadFactor (t.compact E).state.len := by
    rw [hcompacts.loadFactor, hcompacts.len]
    exact hcompacts.capacity
  exact
    { result := hfits.compact_result
      contents := (h.compact hE).2.1
      len := hcompacts.len
      least := hcompacts.capacity ▸ isLeast_sufficient h.sizing.loadFactor t.len
      sizing := hsizing
      capacity_le := hfits.capacity_le_of_compacts hcompacts
      len_le := hcompacts.fits.len_le
      again := hcompacts.fits.compact_eq_done hagain }

end Table

/-! ### Containers -/

section Containers

variable {τ υ ω γ α σ ε ζ : Type} {table : τ → Table σ} {table' : υ → Table σ}
variable {contents : τ → List ε} {contents' : υ → List ζ}
variable {compact : τ → Change τ Unit} {compact' : υ → Change υ Unit}

/-- A compaction of a container around another one. -/
theorem SettledBy.within {u : υ} (h : SettledBy table' contents' compact' u) (put : υ → τ)
    (htable : ∀ v, table (put v) = table' v)
    (hcompact : ∀ v, compact (put v) = (compact' v).within put)
    (hcontents : ∀ v, (contents' v).Perm (contents' u) → (contents (put v)).Perm (contents (put u))) :
    SettledBy table contents compact (put u) := by
  have hstate : (compact (put u)).state = put (compact' u).state := by rw [hcompact]; rfl
  constructor
  · rw [hcompact]; exact h.result
  · rw [hstate]; exact hcontents _ h.contents
  · rw [hstate, htable, htable]; exact h.len
  · rw [hstate, htable, htable]; exact h.least
  · rw [hstate, htable, htable]; exact h.sizing
  · rw [hstate, htable, htable]; exact h.capacity_le
  · rw [hstate, htable]; exact h.len_le
  · rw [hstate, hcompact, h.again]; rfl

/-- What compaction does to a container in the states that are reached from a new one. -/
structure SettlesReached (table : τ → Table σ) (perform : ω → τ → Call τ γ α)
    (contents : τ → List ε) (compact : τ → Change τ Unit) (new : τ) : Prop where
  /-- As long as no insertion fails to grow the table, the entries are within the threshold. -/
  within : ∀ ops, NoOverflow (trace perform ops new) →
    (table (finalState perform ops new)).len ≤ (table (finalState perform ops new)).sizing.threshold
  /-- Wherever they are, compaction settles the container. -/
  settles : ∀ s, Reaches table perform new s → (table s).len ≤ (table s).sizing.threshold →
    SettledBy table contents compact s

theorem Resizing.settlesReached {perform : ω → τ → Call τ γ α} {effect : ω → Effect} {new : τ}
    {f : Footprint} (h : Resizing table perform effect) (hf : f.Describes (table new))
    (hsettles : ∀ s, Reaches table perform new s → (table s).len ≤ (table s).sizing.threshold →
      SettledBy table contents compact s) :
    SettlesReached table perform contents compact new where
  within _ hno := (h.describes_along _ hf hno).fits.len_le
  settles := hsettles

end Containers

theorem WordMap.settledBy {κ ν : Type} [SignedWord κ] [SignedWord ν] {missing : ν} {m : WordMap κ ν}
    {M : FiniteMap κ ν} {within : Prop} (h : m.Represents missing within M)
    (hlen : m.table.len ≤ m.table.sizing.threshold) : SettledBy table entries compact m := by
  obtain ⟨rfl, htable⟩ := h
  exact (htable.toWellFormed.settledBy (inlineLayout_lawful _) hlen).within (WordMap.mk m.missing)
    (fun _ => rfl) (fun _ => rfl) fun _ hperm => hperm

theorem ValueMap.settledBy {σ η κ ν : Type} [EntrySlot σ κ ν] [KeyHash η κ] [BEq κ] [EquivBEq κ]
    {hashing : η} (hE : LawfulSlots σ hashing) {policy : NullPolicy} {m : ValueMap σ η κ ν}
    {M : FiniteMap κ (Option ν)} {within : Prop} (h : m.Represents hashing policy within M)
    (hlen : m.table.len ≤ m.table.sizing.threshold) : SettledBy table entries compact m :=
  (h.table.toWellFormed.settledBy hE hlen).within m.withTable (fun _ => rfl) (fun _ => rfl)
    fun _ hperm => hperm

theorem MemberSet.settledBy {σ η α : Type} [MemberSlot σ α] [KeyHash η α] [BEq α] [EquivBEq α]
    {hashing : η} {storable : α → Unit → Prop} (hE : LawfulSlots σ hashing storable)
    {s : MemberSet σ η α} {S : FiniteSet α} {within : Prop} (h : s.Represents hashing within S)
    (hlen : s.table.len ≤ s.table.sizing.threshold) : SettledBy table members compact s :=
  (h.table.toWellFormed.settledBy hE hlen).within s.withTable (fun _ => rfl) (fun _ => rfl)
    fun _ hperm => hperm.map _

/-- **Compaction picks the least sufficient capacity, cannot overflow, and settles every container that is
reached.** -/
theorem compaction_of_reachable :
    (∀ {loadFactor : Single} {capacity len : Nat}, loadFactor.InOpenUnitInterval → IsCapacity capacity →
      (len : Int) ≤ ((capacity : Rat) * loadFactor.value).floor →
        CompactsToLeast loadFactor capacity len) ∧
    (∀ {κ ν : Type} [SignedWord κ] [SignedWord ν] {config : TableConfig} {missing : ν} {m : WordMap κ ν},
      WordMap.ofConfig config missing = .ok m →
        SettlesReached WordMap.table WordMap.Operation.perform WordMap.entries WordMap.compact
          m) ∧
    (∀ {κ ν : Type} [SignedWord κ] [BEq ν] {config : TableConfig} {policy : NullPolicy}
        {m : WordKeyMap κ ν}, ValueMap.ofConfig config policy {} = .ok m →
      SettlesReached ValueMap.table ValueMap.Operation.perform ValueMap.entries ValueMap.compact
        m) ∧
    (∀ {η κ ν : Type} [Hasher η κ] [BEq κ] [EquivBEq κ] [BEq ν] {hasher : η}, Hasher.Lawful hasher κ →
      ∀ {config : TableConfig} {policy : NullPolicy} {m : KeyMap η κ ν},
        ValueMap.ofConfig config policy ⟨hasher⟩ = .ok m →
      SettlesReached ValueMap.table ValueMap.Operation.perform ValueMap.entries ValueMap.compact
        m) ∧
    (∀ {ν : Type} [BEq ν] {config : TableConfig} {m : PairMap ν}, PairMap.ofConfig config = .ok m →
      SettlesReached PairMap.table PairMap.Operation.perform PairMap.entries PairMap.compact
        m) ∧
    (∀ {κ ν : Type} [SignedWord κ] [SignedWord ν] {config : TableConfig} {initial : ν} {t : Tally κ ν},
      Tally.ofConfig config initial = .ok t →
        SettlesReached Tally.table Tally.Operation.perform Tally.entries Tally.compact t) ∧
    (∀ {α : Type} [SignedWord α] {config : TableConfig} {s : WordSet α}, WordSet.ofConfig config = .ok s →
      SettlesReached WordSet.table WordSet.Operation.perform WordSet.members WordSet.compact
        s) ∧
    (∀ {η α : Type} [Hasher η α] [BEq α] [EquivBEq α] {hasher : η}, Hasher.Lawful hasher α →
      ∀ {config : TableConfig} {s : KeySet η α}, MemberSet.ofConfig config ⟨hasher⟩ = .ok s →
      SettlesReached MemberSet.table MemberSet.Operation.perform MemberSet.members
        MemberSet.compact s) := by
  refine ⟨compactsToLeast, ?_, ?_, ?_, ?_, ?_, ?_, ?_⟩
  · intro κ ν _ _ config missing m hm
    refine WordMap.resizing.settlesReached (WordMap.describes_ofConfig hm) fun s hs hlen => ?_
    obtain ⟨M, hM⟩ := WordMap.exists_of_reaches hm hs
    exact WordMap.settledBy hM hlen
  · intro κ ν _ _ config policy m hm
    refine ValueMap.resizing.settlesReached (ValueMap.describes_ofConfig hm) fun s hs hlen => ?_
    have hE : ValueMap.LawfulSlots (WordSlot κ ν) ({} : Spreading) := wordSlot_lawful {}
    obtain ⟨M, hM⟩ := ValueMap.exists_of_reaches hE hm hs
    exact ValueMap.settledBy hE hM hlen
  · intro η κ ν _ _ _ _ hasher hlawful config policy m hm
    refine ValueMap.resizing.settlesReached (ValueMap.describes_ofConfig hm) fun s hs hlen => ?_
    have hE : ValueMap.LawfulSlots (Option (Bucket κ ν)) (⟨hasher⟩ : Mixed η) := bucket_lawful hlawful
    obtain ⟨M, hM⟩ := ValueMap.exists_of_reaches hE hm hs
    exact ValueMap.settledBy hE hM hlen
  · intro ν _ config m hm
    refine PairMap.resizing.settlesReached (PairMap.describes_ofConfig hm) fun s hs hlen => ?_
    obtain ⟨M, hM, -⟩ := PairMap.exists_of_reaches hm hs
    exact (ValueMap.settledBy (wordSlot_lawful {}) hM hlen).within PairMap.mk (fun _ => rfl)
      (fun _ => rfl) fun _ hperm => (hperm.filterMap _).map _
  · intro κ ν _ _ config initial t ht
    refine Tally.resizing.settlesReached (Tally.describes_ofConfig ht) fun s hs hlen => ?_
    obtain ⟨missing, hcounts⟩ := (show s.Reachable from ⟨config, initial, t, ht, hs⟩).counts.represents
    exact (WordMap.settledBy hcounts hlen).within Tally.mk (fun _ => rfl) (fun _ => rfl)
      fun _ hperm => hperm
  · intro α _ config new hnew
    refine WordSet.resizing.settlesReached (WordSet.describes_ofConfig hnew) fun s hs hlen => ?_
    obtain ⟨S, hS⟩ := WordSet.exists_of_reaches hnew hs
    exact (MemberSet.settledBy (wordMember_lawful {}) hS.inner hlen).within (WordSet.mk · s.marked)
      (fun _ => rfl) (fun _ => rfl) fun _ hperm => hperm.append_right _
  · intro η α _ _ _ hasher hlawful config new hnew
    refine MemberSet.resizing.settlesReached (MemberSet.describes_ofConfig hnew) fun s hs hlen => ?_
    have hE : MemberSet.LawfulSlots (Option (HashedMember α)) (⟨hasher⟩ : Mixed η) _ :=
      hashedMember_lawful hlawful
    obtain ⟨S, hS⟩ := MemberSet.exists_of_reaches hE hnew hs
    exact MemberSet.settledBy hE hS hlen

/-- Under a load factor of 0.95, the guess for eight entries is eight slots, which hold only seven; so it is
doubled once. Under the greatest load factor below one, so many entries that double precision rounds their
number need the greatest table. Of the seven containers, each grows to 128 slots under a load factor of one
in 64, loses an entry and is then compacted to 64. -/
theorem compaction_of_reachable_sparse :
    let dense : Single := ⟨0x3f733333⟩
    let greatest : Single := ⟨0x3f7fffff⟩
    let sparse : TableConfig := { loadFactor := ⟨0x3c800000⟩ }
    let wordOps : List (WordMap.Operation Int32 Int32) := [.insert 1 10, .insert 9 90, .erase 9]
    let wordKeyOps : List (ValueMap.Operation (WordSlot Int64 Int32) Spreading Int64 Int32) :=
      [.insert 1 10, .insertNull 9, .erase 1]
    let keyOps : List (ValueMap.Operation (Option (Bucket String Int32)) (Mixed HasherChoice)
        String Int32) :=
      [.insert "a" 1, .insertNull "b", .erase "a"]
    let pairOps : List (PairMap.Operation Int32) :=
      [.extend [((1, 2), 10), ((2, 1), 20)], .retain fun pair _ => .answers (pair.1 == 1)]
    let tallyOps : List (Tally.Operation Int32 Int32) :=
      [.incrementAndGet 5, .set 6 2, .addAndGet 6 (-2)]
    let wordSetOps : List (WordSet.Operation Int32) := [.extend [-1, 1, 2], .erase 2]
    let keySetOps : List (MemberSet.Operation (Option (HashedMember String)) (Mixed HasherChoice)
        String) :=
      [.extend ["a", "b"], .take "a"]
    let sizing : Sizing := .ofCapacity 8 sparse.loadFactor
    let hasher := HasherChoice.constant 7
    let words : WordMap Int32 Int32 := .ofSizing sizing .cached (-1)
    let wordKeys : WordKeyMap Int64 Int32 := .ofSizing sizing .cached .nullable {}
    let keys : KeyMap HasherChoice String Int32 := .ofSizing sizing .cached .nullable ⟨hasher⟩
    let pairs : PairMap Int32 := ⟨.ofSizing sizing .cached .nonNull {}⟩
    let tally : Tally Int32 Int32 := ⟨.ofSizing sizing .cached 0⟩
    let wordSet : WordSet Int32 := ⟨.ofSizing sizing .cached {}, false⟩
    let keySet : KeySet HasherChoice String := .ofSizing sizing .cached ⟨hasher⟩
    (CompactsToLeast dense 16 8 ∧ Sizing.idealCapacity dense 8 = 8 ∧
      ((Sizing.ofCapacity 16 dense).compactedFor? 8).map Sizing.capacity = some 16) ∧
    (CompactsToLeast greatest maxCapacity (2 ^ 62 - 2 ^ 38 - 1) ∧
      Double.ofNat (2 ^ 62 - 2 ^ 38 - 1) = 2 ^ 62 - 2 ^ 38) ∧
    (SettlesReached WordMap.table WordMap.Operation.perform WordMap.entries WordMap.compact
        words ∧
      NoOverflow (trace WordMap.Operation.perform wordOps words) ∧
      (finalState WordMap.Operation.perform wordOps words).compact.state.capacity = 64) ∧
    (SettlesReached ValueMap.table ValueMap.Operation.perform ValueMap.entries ValueMap.compact
        wordKeys ∧
      NoOverflow (trace ValueMap.Operation.perform wordKeyOps wordKeys) ∧
      (finalState ValueMap.Operation.perform wordKeyOps wordKeys).compact.state.capacity = 64) ∧
    (SettlesReached ValueMap.table ValueMap.Operation.perform ValueMap.entries ValueMap.compact
        keys ∧
      NoOverflow (trace ValueMap.Operation.perform keyOps keys) ∧
      (finalState ValueMap.Operation.perform keyOps keys).compact.state.capacity = 64) ∧
    (SettlesReached PairMap.table PairMap.Operation.perform PairMap.entries PairMap.compact
        pairs ∧
      NoOverflow (trace PairMap.Operation.perform pairOps pairs) ∧
      (finalState PairMap.Operation.perform pairOps pairs).compact.state.capacity = 64) ∧
    (SettlesReached Tally.table Tally.Operation.perform Tally.entries Tally.compact tally ∧
      NoOverflow (trace Tally.Operation.perform tallyOps tally) ∧
      (finalState Tally.Operation.perform tallyOps tally).compact.state.capacity = 64) ∧
    (SettlesReached WordSet.table WordSet.Operation.perform WordSet.members WordSet.compact
        wordSet ∧
      NoOverflow (trace WordSet.Operation.perform wordSetOps wordSet) ∧
      (finalState WordSet.Operation.perform wordSetOps wordSet).compact.state.capacity = 64) ∧
    (SettlesReached MemberSet.table MemberSet.Operation.perform MemberSet.members
        MemberSet.compact keySet ∧
      NoOverflow (trace MemberSet.Operation.perform keySetOps keySet) ∧
      (finalState MemberSet.Operation.perform keySetOps keySet).compact.state.capacity = 64) := by
  intro dense greatest sparse wordOps wordKeyOps keyOps pairOps tallyOps wordSetOps keySetOps sizing hasher
    words wordKeys keys pairs tally wordSet keySet
  have hsizing : Sizing.ofConfig sparse = .ok sizing := by decide +kernel
  have hlawful : Hasher.Lawful hasher String := fun a b h => by rw [eq_of_beq h]
  have hwords : WordMap.ofConfig sparse (-1) = .ok words := by
    rw [WordMap.ofConfig, hsizing]; rfl
  have hwordKeys : ValueMap.ofConfig sparse .nullable {} = .ok wordKeys := by
    rw [ValueMap.ofConfig, hsizing]; rfl
  have hkeys : ValueMap.ofConfig sparse .nullable ⟨hasher⟩ = .ok keys := by
    rw [ValueMap.ofConfig, hsizing]; rfl
  have hpairs : PairMap.ofConfig sparse = .ok pairs := by
    rw [PairMap.ofConfig, ValueMap.ofConfig, hsizing]; rfl
  have htally : Tally.ofConfig sparse 0 = .ok tally := by
    rw [Tally.ofConfig, WordMap.ofConfig, hsizing]; rfl
  have hwordSet : WordSet.ofConfig sparse = .ok wordSet := by
    rw [WordSet.ofConfig, MemberSet.ofConfig, hsizing]; rfl
  have hkeySet : MemberSet.ofConfig sparse ⟨hasher⟩ = .ok keySet := by
    rw [MemberSet.ofConfig, hsizing]; rfl
  obtain ⟨hleast, ofWords, ofWordKeys, ofKeys, ofPairs, ofTally, ofWordSet, ofKeySet⟩ :=
    compaction_of_reachable
  have hsixteen : IsCapacity 16 := ⟨4, by decide, by decide, rfl⟩
  have hmax : IsCapacity maxCapacity := ⟨62, by decide, by decide, rfl⟩
  refine ⟨⟨hleast ?_ hsixteen ?_, ?_, ?_⟩, ⟨hleast ?_ hmax ?_, ?_⟩, ⟨ofWords hwords, ?_, ?_⟩,
    ⟨ofWordKeys hwordKeys, ?_, ?_⟩, ⟨ofKeys hlawful hkeys, ?_, ?_⟩, ⟨ofPairs hpairs, ?_, ?_⟩,
    ⟨ofTally htally, ?_, ?_⟩, ⟨ofWordSet hwordSet, ?_, ?_⟩, ⟨ofKeySet hlawful hkeySet, ?_, ?_⟩⟩
  all_goals decide +kernel

end LinearProbing
