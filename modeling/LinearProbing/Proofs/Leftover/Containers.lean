import LinearProbing.Container
import LinearProbing.Hash.Polynomial
import LinearProbing.Proofs.AssociativeCache.Refinement
import LinearProbing.Proofs.Leftover.AssociativeCache
import LinearProbing.Proofs.Leftover.ValueMap
import LinearProbing.Proofs.Leftover.WordMap

/-!
# LinearProbing.Proofs.Leftover.Containers

**What is left in vacant slots never matters.** Two containers that are the same but for what is left in
vacant slots answer every sequence of operations alike, and all that is read of them is the same
(`AnswerAlike`). One of them may be a container that was cleared, after whatever had been done to it, and the
other one a new container of the same size.
-/

namespace LinearProbing

open TableContainer (len sizing hashCode toText detailedText)

/-- Two containers answer every sequence of operations alike, and all that is read of them is the same. -/
structure AnswerAlike {μ ω γ α ε : Type} [TableContainer μ] (R : μ → μ → Prop) (perform : ω → μ → Call μ γ α)
    (iterated : μ → Nat → List ε) (m n : μ) : Prop where
  /-- At every step the results are the same, the functions of the caller that were run, with their arguments,
  and what is reported; and the containers are alike again. -/
  run : ∀ ops, List.Forall₂ (Call.Matches R) (trace perform ops m) (trace perform ops n) ∧
    R (finalState perform ops m) (finalState perform ops n)
  len_eq : len m = len n
  sizing_eq : sizing m = sizing n
  /-- Iterators produce the same. -/
  iterated_eq : ∀ count, iterated m count = iterated n count
  hashCode_eq : hashCode m = hashCode n
  texts_eq : toText m = toText n ∧ detailedText m = detailedText n
  beq_eq : ∀ other, (m == other) = (n == other) ∧ (other == m) = (other == n)

/-! ### New sizings -/

namespace Sizing

theorem leastPowerOfTwo_two_pow (k : Nat) : leastPowerOfTwo (2 ^ k) = 2 ^ k :=
  Nat.le_antisymm (leastPowerOfTwo_le (Nat.le_refl _)) (le_leastPowerOfTwo _)

theorem capacityFor_of_isCapacity {capacity : Nat} (h : IsCapacity capacity) :
    capacityFor capacity = .ok capacity := by
  have hmin := h.min_le
  have hmax := h.le_max
  have hpos : capacity ≠ 0 := Nat.ne_of_gt (Nat.lt_of_lt_of_le (by decide) hmin)
  obtain ⟨k, -, -, rfl⟩ := h
  rw [capacityFor, if_neg hpos, if_neg (Nat.not_lt.mpr hmax), Nat.max_eq_left hmin,
    leastPowerOfTwo_two_pow]

/-- A sizing that was reached can be asked for. -/
theorem Valid.ofConfig_eq {s : Sizing} (h : s.Valid) (mode : IterationMode) :
    ofConfig { capacity := s.capacity, loadFactor := s.loadFactor, mode } = .ok s := by
  rw [ofConfig, if_pos h.loadFactor, capacityFor_of_isCapacity h.capacity]
  exact congrArg Except.ok h.eq_ofCapacity.symm

end Sizing

/-- What asks for a table of the size of another one. -/
def Table.config {σ : Type} (t : Table σ) (mode : IterationMode) : TableConfig :=
  { capacity := t.capacity, loadFactor := t.sizing.loadFactor, mode }

/-! ### Maps of words -/

namespace WordMap

variable {κ ν : Type} [SignedWord κ] [SignedWord ν] {counted : Prop} {missing : ν} {m n : WordMap κ ν}

theorem Like.run (h : m.Like missing counted n) (ops : List (Operation κ ν)) :
    List.Forall₂ (Call.Matches (Like missing counted)) (trace Operation.perform ops m)
        (trace Operation.perform ops n) ∧
      (finalState Operation.perform ops m).Like missing counted (finalState Operation.perform ops n) :=
  forall₂_matches (fun op _ _ h => h.perform op) ops h

theorem Like.beq_eq (h : m.Like missing counted n) (other : WordMap κ ν) :
    (m == other) = (n == other) ∧ (other == m) = (other == n) := by
  have hlen : m.len = n.len := h.table.len_eq
  have hincludes : m.includes other.entries = n.includes other.entries := by
    rw [includes, includes, funext h.get?_eq]
  refine ⟨?_, ?_⟩
  · show (m.len == other.len && other.includes m.entries) = (n.len == other.len && other.includes n.entries)
    rw [hlen, h.entries_eq]
  · show (other.len == m.len && m.includes other.entries) = (other.len == n.len && n.includes other.entries)
    rw [hlen, hincludes]

/-- What an iterator over a map produces when it is called so many times. -/
def iterated (m : WordMap κ ν) (count : Nat) : List (κ × ν) := (m.table.iter.take m.layout count).1

theorem Like.answerAlike [Digest] [ContentHash κ] [ContentHash ν] (h : m.Like missing counted n) :
    AnswerAlike (Like missing counted) Operation.perform iterated m n where
  run := h.run
  len_eq := h.table.len_eq
  sizing_eq := h.table.sizing_eq
  iterated_eq count := by
    rw [iterated, iterated, layout, layout, h.left, h.right]
    exact h.table.take_iter_eq count
  hashCode_eq := congrArg mapContentHash h.entries_eq
  texts_eq := ⟨congrArg plainMap h.entries_eq, congrArg detailedMap h.entries_eq⟩
  beq_eq := h.beq_eq

/-- The entries of a map are counted, whatever was done to it. -/
theorem counted_finalState {config : TableConfig} (hm : ofConfig config missing = .ok m)
    (ops : List (Operation κ ν)) :
    (finalState Operation.perform ops m).missing = missing ∧
      (finalState Operation.perform ops m).table.Counted (inlineLayout missing) := by
  obtain ⟨sizing, hsizing, rfl⟩ := exists_of_map_eq_ok hm
  have hnew : (ofSizing sizing config.mode missing : WordMap κ ν).Like missing True
      (ofSizing sizing config.mode missing) :=
    ⟨rfl, rfl, .refl fun _ =>
      Table.counted_ofSizing (layout_lawful missing) (Sizing.valid_of_ofConfig hsizing) config.mode⟩
  obtain ⟨-, hleft⟩ := hnew.run ops
  exact ⟨hleft.left, hleft.table.count trivial⟩

/-- A map that was cleared is like a new one. -/
theorem like_clear (hmissing : m.missing = missing) (h : m.table.Counted (inlineLayout missing))
    (mode : IterationMode) : m.clear.Like missing True (ofSizing m.table.sizing mode missing) := by
  subst hmissing
  exact ⟨rfl, rfl, h.clearWith_like (layout_lawful _) (fun _ => vacant_empty _) mode⟩

end WordMap

/-! ### Maps to values -/

namespace ValueMap

variable {σ η κ ν : Type} [EntrySlot σ κ ν] [KeyHash η κ] [BEq κ] [BEq ν] {hashing : η} {policy : NullPolicy}
  {counted : Prop} {m n : ValueMap σ η κ ν} (hE : (EntrySlot.layout : EntryLayout σ κ (Option ν)).Plain)
include hE

theorem Like.run (h : m.Like hashing policy counted n) (ops : List (Operation σ η κ ν)) :
    List.Forall₂ (Call.Matches (Like hashing policy counted)) (trace Operation.perform ops m)
        (trace Operation.perform ops n) ∧
      (finalState Operation.perform ops m).Like hashing policy counted (finalState Operation.perform ops n) :=
  forall₂_matches (fun op _ _ h => h.perform hE op) ops h

omit hE in
theorem Like.beq_eq (h : m.Like hashing policy counted n) (other : ValueMap σ η κ ν) :
    (m == other) = (n == other) ∧ (other == m) = (other == n) := by
  have hlen : m.len = n.len := h.table.len_eq
  have hlookup : m.lookup? = n.lookup? := by
    funext key
    show (m.find? key).bind _ = (n.find? key).bind _
    rw [h.find?_eq]
    exact congrArg (Option.bind _) (funext h.table.entryAt?_eq)
  refine ⟨?_, ?_⟩
  · show beq m other = beq n other
    rw [beq, beq, hlen, h.entries_eq]
  · show beq other m = beq other n
    rw [beq, beq, hlen, hlookup]

omit hE [KeyHash η κ] [BEq κ] [BEq ν] in
/-- What an iterator over a map produces when it is called so many times. -/
def iterated (m : ValueMap σ η κ ν) (count : Nat) : List (κ × Option ν) :=
  (m.table.iter.take m.layout count).1

theorem Like.answerAlike [Digest] [ContentHash κ] [ContentHash ν] [Render κ] [Render ν]
    (h : m.Like hashing policy counted n) :
    AnswerAlike (Like hashing policy counted) Operation.perform iterated m n where
  run := h.run hE
  len_eq := h.table.len_eq
  sizing_eq := h.table.sizing_eq
  iterated_eq := h.table.take_iter_eq
  hashCode_eq := by
    show hashCode m = hashCode n
    rw [hashCode, hashCode, h.policy_eq.1, h.policy_eq.2, valueEntries, valueEntries, h.entries_eq]
  texts_eq := ⟨congrArg plainMap h.entries_eq, congrArg detailedMap h.entries_eq⟩
  beq_eq := h.beq_eq

/-- The entries of a map are counted, whatever was done to it. -/
theorem counted_finalState {config : TableConfig} (hm : ofConfig config policy hashing = .ok m)
    (ops : List (Operation σ η κ ν)) :
    (finalState Operation.perform ops m).hashing = hashing ∧
      (finalState Operation.perform ops m).policy = policy ∧
        (finalState Operation.perform ops m).table.Counted EntrySlot.layout := by
  obtain ⟨sizing, hsizing, rfl⟩ := exists_of_map_eq_ok hm
  have hnew : (ofSizing sizing config.mode policy hashing : ValueMap σ η κ ν).Like hashing policy True
      (ofSizing sizing config.mode policy hashing) :=
    ⟨⟨rfl, rfl⟩, ⟨rfl, rfl⟩, .refl fun _ =>
      Table.counted_ofSizing hE.lawful (Sizing.valid_of_ofConfig hsizing) config.mode⟩
  obtain ⟨-, hleft⟩ := hnew.run hE ops
  exact ⟨hleft.hashing_eq.1, hleft.policy_eq.1, hleft.table.count trivial⟩

omit [KeyHash η κ] [BEq κ] [BEq ν] in
/-- A map that was cleared is like a new one. -/
theorem like_clear (hhashing : m.hashing = hashing) (hpolicy : m.policy = policy)
    (h : m.table.Counted EntrySlot.layout) (mode : IterationMode) :
    m.clear.Like hashing policy True (ofSizing m.table.sizing mode policy hashing) :=
  ⟨⟨hhashing, rfl⟩, ⟨hpolicy, rfl⟩, h.clearWith_like hE.lawful hE.lawful.vacant_leave mode⟩

end ValueMap

/-! ### Caches -/

namespace AssociativeCache

variable {κ ν : Type} [SignedWord κ] [BEq ν] {counting : Prop} {c d : AssociativeCache κ ν}

/-- Two caches answer every sequence of operations alike, and all that is read of them is the same. -/
structure AnswerAlike [Render ν] (counting : Prop) (c d : AssociativeCache κ ν) : Prop where
  /-- At every step the results are the same, the values that are made and disposed of, and what is reported;
  and the caches are alike again. -/
  run : ∀ ops : List (Operation κ ν), List.Forall₂ (Call.Matches (Like counting))
      (trace Operation.perform ops c) (trace Operation.perform ops d) ∧
    (finalState Operation.perform ops c).Like counting (finalState Operation.perform ops d)
  extend : ∀ entries, AlikeDisposals counting (c.extend entries) (d.extend entries)
  len_eq : c.len = d.len
  capacity_eq : c.capacity = d.capacity
  entries_eq : c.entries = d.entries
  toText_eq : c.toText = d.toText
  /-- The detailed text shows the counters. -/
  detailedText_eq : counting → c.detailedText = d.detailedText

theorem Like.answerAlike [Render ν] (h : c.Like counting d) : c.AnswerAlike counting d where
  run ops := forall₂_matches (fun op _ _ h => h.perform op) ops h
  extend := h.extend
  len_eq := h.len_eq
  capacity_eq := h.capacity_eq
  entries_eq := h.entries_eq
  toText_eq := congrArg plainMap h.entries_eq
  detailedText_eq := h.detailedText_eq

omit [BEq ν] [SignedWord κ] in
/-- A dimension that was rounded can be asked for. -/
theorem roundedDimension_rounded {requested rounded : Nat} (h : roundedDimension requested = .ok rounded) :
    roundedDimension rounded = .ok rounded := by
  obtain ⟨hrounded, hpos⟩ := roundedDimension_eq_ok h
  obtain ⟨k, hk⟩ := exists_leastPowerOfTwo requested
  have hbound : rounded < sizeLimit := by
    unfold roundedDimension at h
    split at h
    · cases h
    · dsimp only at h
      split at h
      · next hlt =>
        cases h
        exact hlt
      · cases h
  have hsame : leastPowerOfTwo rounded = rounded := by rw [hrounded, hk, Sizing.leastPowerOfTwo_two_pow]
  rw [roundedDimension, if_neg (Nat.ne_of_gt hpos)]
  dsimp only
  rw [hsame, if_pos hbound]

omit [BEq ν] in
/-- A new cache is vacant, and it is what its dimensions ask for. -/
theorem ofDimensions_rounded {sets ways : Nat} (h : ofDimensions sets ways = .ok c) :
    ofDimensions c.numSets c.setSize = .ok c ∧ c.len = 0 ∧
      c.slots = Array.replicate (c.numSets * c.setSize) slotLayout.empty := by
  simp only [ofDimensions, bind, Except.bind] at h
  split at h
  · cases h
  next numSets hsets =>
  split at h
  · cases h
  next setSize hways =>
  split at h
  · next hbound =>
    cases h
    refine ⟨?_, rfl, rfl⟩
    simp only [ofDimensions, bind, Except.bind, roundedDimension_rounded hsets,
      roundedDimension_rounded hways, if_pos hbound, pure, Except.pure]
  · cases h

/-- A cache that was cleared, whatever had been done to it, is like a new one, but for its counters. -/
theorem like_clear {sets ways : Nat} (h : ofDimensions sets ways = .ok c) (ops : List (Operation κ ν)) :
    (finalState Operation.perform ops c).clear.state.Like False c := by
  obtain ⟨-, -, hnew⟩ := represents_of_ofDimensions h
  obtain ⟨-, hleft⟩ := forall₂_mirrors (fun op _ _ h => h.mirrors op) ops hnew
  obtain ⟨hsets, hways⟩ := dimensions_finalState (κ := κ) (ν := ν) ops
    { numSets := c.numSets, setSize := c.setSize }
  have hnumSets : (finalState Operation.perform ops c).numSets = c.numSets := hleft.numSets.symm.trans hsets
  have hsetSize : (finalState Operation.perform ops c).setSize = c.setSize := hleft.setSize.symm.trans hways
  obtain ⟨-, hlen, hslots⟩ := ofDimensions_rounded h
  refine ⟨hnumSets, hsetSize, hlen.symm, .of_vacant ?_ ?_ ?_, False.elim⟩
  · show (Array.map _ (finalState Operation.perform ops c).slots).size = c.slots.size
    rw [Array.size_map, hleft.size, hnew.size, hnumSets, hsetSize]
  · exact Layout.vacantAt_map slotLayout_lawful (fun _ => rfl) _
  · rw [hslots]
    exact fun _ => slotLayout_lawful.vacantAt_replicate _

end AssociativeCache

/-! ### All of them -/

/-- **What is left in vacant slots never matters.** Maps and caches that are the same but for that answer
every sequence of operations alike. So does one that was cleared, after any run, and a new one of the same
size; the counters of a cache are not set to zero by this, and can be told apart from those of a new one. -/
theorem answerAlike_of_like [Digest] :
    (∀ {κ ν : Type} [SignedWord κ] [SignedWord ν] [ContentHash κ] [ContentHash ν] {missing : ν}
      {m : WordMap κ ν},
      (∀ {counted : Prop} {n : WordMap κ ν}, m.Like missing counted n →
        AnswerAlike (WordMap.Like missing counted) WordMap.Operation.perform WordMap.iterated m n) ∧
      ∀ {config : TableConfig}, WordMap.ofConfig config missing = .ok m →
        ∀ ops mode, ∃ new : WordMap κ ν,
          WordMap.ofConfig ((finalState WordMap.Operation.perform ops m).table.config mode) missing = .ok new ∧
            AnswerAlike (WordMap.Like missing True) WordMap.Operation.perform WordMap.iterated
              (finalState WordMap.Operation.perform ops m).clear new) ∧
    (∀ {κ ν : Type} [SignedWord κ] [BEq ν] [ContentHash κ] [ContentHash ν] [Render ν] {hashing : Spreading}
      {policy : NullPolicy} {m : WordKeyMap κ ν},
      (∀ {counted : Prop} {n : WordKeyMap κ ν}, m.Like hashing policy counted n →
        AnswerAlike (ValueMap.Like hashing policy counted) ValueMap.Operation.perform ValueMap.iterated m n) ∧
      ∀ {config : TableConfig}, ValueMap.ofConfig config policy hashing = .ok m →
        ∀ ops mode, ∃ new : WordKeyMap κ ν,
          ValueMap.ofConfig ((finalState ValueMap.Operation.perform ops m).table.config mode) policy hashing =
              .ok new ∧
            AnswerAlike (ValueMap.Like hashing policy True) ValueMap.Operation.perform ValueMap.iterated
              (finalState ValueMap.Operation.perform ops m).clear new) ∧
    (∀ {κ ν : Type} [SignedWord κ] [BEq ν] [Render ν] {c : AssociativeCache κ ν},
      (∀ {counting : Prop} {d : AssociativeCache κ ν}, c.Like counting d → c.AnswerAlike counting d) ∧
      ∀ {sets ways : Nat}, AssociativeCache.ofDimensions sets ways = .ok c →
        ∀ ops : List (AssociativeCache.Operation κ ν), ∃ new : AssociativeCache κ ν,
          AssociativeCache.ofDimensions (finalState AssociativeCache.Operation.perform ops c).numSets
              (finalState AssociativeCache.Operation.perform ops c).setSize = .ok new ∧
            (finalState AssociativeCache.Operation.perform ops c).clear.state.AnswerAlike False new) := by
  refine ⟨?_, ?_, ?_⟩
  · intro κ ν _ _ _ _ missing m
    refine ⟨fun h => h.answerAlike, fun hm ops mode => ?_⟩
    obtain ⟨hmissing, hcounted⟩ := WordMap.counted_finalState hm ops
    exact ⟨_, congrArg (Except.map _) (hcounted.sizing.ofConfig_eq mode),
      (WordMap.like_clear hmissing hcounted mode).answerAlike⟩
  · intro κ ν _ _ _ _ _ hashing policy m
    refine ⟨fun h => h.answerAlike wordSlot_plain, fun hm ops mode => ?_⟩
    obtain ⟨hhashing, hpolicy, hcounted⟩ := ValueMap.counted_finalState wordSlot_plain hm ops
    exact ⟨_, congrArg (Except.map _) (hcounted.sizing.ofConfig_eq mode),
      (ValueMap.like_clear wordSlot_plain hhashing hpolicy hcounted mode).answerAlike wordSlot_plain⟩
  · intro κ ν _ _ _ c
    refine ⟨fun h => h.answerAlike, fun hc ops => ?_⟩
    have hcleared := AssociativeCache.like_clear hc ops
    have hnumSets : (finalState AssociativeCache.Operation.perform ops c).numSets = c.numSets :=
      hcleared.numSets_eq
    have hsetSize : (finalState AssociativeCache.Operation.perform ops c).setSize = c.setSize :=
      hcleared.setSize_eq
    rw [hnumSets, hsetSize]
    exact ⟨c, (AssociativeCache.ofDimensions_rounded hc).1, hcleared.answerAlike⟩

deriving instance DecidableEq for WordSlot, CacheSlot

/-- Containers with different keys left in their vacant slots, before and after they are cleared. -/
theorem answerAlike_of_like_erased :
    let word (key : Int32) : WordMap Int32 Int32 := finalState WordMap.Operation.perform
      [.insert 1 10, .insert 9 90, .insert key 170, .erase key] (.empty (-1))
    let wordKey (key : Int32) : WordKeyMap Int32 Int32 := finalState ValueMap.Operation.perform
      [.insert 1 10, .insertNull 9, .insert key 170, .erase key] (.empty .nullable {})
    let cache (key : Int32) : AssociativeCache Int32 Int32 := finalState AssociativeCache.Operation.perform
      [.insert 1 10, .insert key 170, .insert 3 30, .erase key]
      { slots := Array.replicate 4 ⟨0, none⟩, numSets := 2, setSize := 2, len := 0
        hits := 0, misses := 0, puts := 0 }
    ((word 17).table.slots ≠ (word 25).table.slots ∧
      AnswerAlike (WordMap.Like (-1) False) WordMap.Operation.perform WordMap.iterated (word 17) (word 25) ∧
      ∃ new, WordMap.ofConfig { capacity := 8, mode := .fresh } (-1) = .ok new ∧
        AnswerAlike (WordMap.Like (-1) True) WordMap.Operation.perform WordMap.iterated (word 17).clear new) ∧
    ((wordKey 17).table.slots ≠ (wordKey 25).table.slots ∧
      AnswerAlike (ValueMap.Like {} .nullable False) ValueMap.Operation.perform ValueMap.iterated
        (wordKey 17) (wordKey 25) ∧
      (wordKey 17).clear.table.slots ≠ (wordKey 25).clear.table.slots ∧
      ∃ new, ValueMap.ofConfig { capacity := 8, mode := .fresh } .nullable {} = .ok new ∧
        AnswerAlike (ValueMap.Like {} .nullable True) ValueMap.Operation.perform ValueMap.iterated
          (wordKey 17).clear new) ∧
    ((cache 5).slots ≠ (cache 7).slots ∧ (cache 5).AnswerAlike True (cache 7) ∧
      (cache 5).clear.state.slots ≠ (cache 7).clear.state.slots ∧
      ∃ new, AssociativeCache.ofDimensions 2 2 = .ok new ∧
        (cache 5).clear.state.AnswerAlike False new) := by
  intro word wordKey cache
  obtain ⟨ofWord, ofWordKey, ofCache⟩ := answerAlike_of_like
  have hempty : AssociativeCache.ofDimensions 2 2 = .ok
      ({ slots := Array.replicate 4 ⟨0, none⟩, numSets := 2, setSize := 2, len := 0
         hits := 0, misses := 0, puts := 0 } : AssociativeCache Int32 Int32) := rfl
  refine ⟨⟨by decide +kernel, ?_, ?_⟩, ⟨by decide +kernel, ?_, by decide +kernel, ?_⟩,
    ⟨by decide +kernel, ?_, by decide +kernel, ?_⟩⟩
  · exact ofWord.1 ⟨by decide +kernel, by decide +kernel, by decide +kernel, by decide +kernel,
      .of_lt (by decide +kernel) (by decide +kernel), False.elim⟩
  · have hconfig : (word 17).table.config .fresh = { capacity := 8, mode := .fresh } := by decide +kernel
    rw [← hconfig]
    exact ofWord.2 (WordMap.ofConfig_default (-1))
      [.insert 1 10, .insert 9 90, .insert 17 170, .erase 17] .fresh
  · exact ofWordKey.1 ⟨⟨rfl, rfl⟩, by decide +kernel, by decide +kernel, by decide +kernel,
      .of_lt (by decide +kernel) (by decide +kernel), False.elim⟩
  · have hconfig : (wordKey 17).table.config .fresh = { capacity := 8, mode := .fresh } := by decide +kernel
    have hnew : ValueMap.ofConfig {} .nullable ⟨⟩ = .ok (.empty .nullable ⟨⟩ : WordKeyMap Int32 Int32) :=
      ValueMap.ofConfig_default .nullable _
    have hcleared := ofWordKey.2 hnew [.insert 1 10, .insertNull 9, .insert 17 170, .erase 17] .fresh
    rw [← hconfig]
    exact hcleared
  · exact ofCache.1 ⟨by decide +kernel, by decide +kernel, by decide +kernel,
      .of_lt (by decide +kernel) (by decide +kernel), fun _ => by decide +kernel⟩
  · have hsets : (cache 5).numSets = 2 := by decide +kernel
    have hways : (cache 5).setSize = 2 := by decide +kernel
    have hcleared := ofCache.2 hempty [.insert 1 10, .insert 5 170, .insert 3 30, .erase 5]
    change ∃ new, AssociativeCache.ofDimensions (cache 5).numSets (cache 5).setSize = .ok new ∧ _ at hcleared
    rw [hsets, hways] at hcleared
    exact hcleared

end LinearProbing
