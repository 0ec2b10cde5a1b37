import LinearProbing.Proofs.Contents
import LinearProbing.Proofs.Overflow
import LinearProbing.Proofs.Tally.Refinement

/-!
# LinearProbing.Proofs.Tally.Commuting

**Additions commute.** A tally to whose counts the same amounts are added, in one order or in another and
through any of the operations that add, ends with the same counts (`endsAlike_of_perm`). On the way the
counts may go through the initial value at different moments, and entries come and go, so the two tables
may differ.

The counting function that a tally stands for changes at each key by the sum of the amounts added there
(`Represents.performAll`), and a sum has no order. What compares tallies, hashes them and finds their
extreme counts depends on nothing but this function (`Represents.sameCounts`).
-/

namespace LinearProbing.Tally

variable {κ ν : Type} [SignedWord κ] [SignedWord ν]

/-! ### Lists of additions -/

/-- Operations on a tally, one after the other, up to the first that fails. -/
def performAll (ops : List (Operation κ ν)) (t : Tally κ ν) : Change (Tally κ ν) Unit :=
  Change.forEach (fun t op => (op.perform t).toChange) ops t

omit [SignedWord κ] in
/-- The operations add amounts to the counts of keys, as a list says. -/
def Adds (ops : List (Operation κ ν)) (additions : List (κ × ν)) : Prop :=
  List.Forall₂ (fun op addition => op.added? = some addition) ops additions

/-- The sum of the amounts that are added to the count of a key. -/
def totalOf (additions : List (κ × ν)) (key : κ) : Int :=
  (additions.map fun e => if e.1 = key then SignedWord.toInt e.2 else 0).sum

/-- A counting function to which a list of amounts is added. -/
def Spec.addAll (additions : List (κ × ν)) (f : κ → ν) : κ → ν :=
  fun key => SignedWord.plus (f key) (totalOf additions key)

theorem totalOf_perm {additions additions' : List (κ × ν)} (h : additions.Perm additions') :
    totalOf additions = totalOf additions' :=
  funext fun _ => (h.map _).sum_eq

theorem Spec.addAll_perm {additions additions' : List (κ × ν)} (h : additions.Perm additions')
    (f : κ → ν) : Spec.addAll additions f = Spec.addAll additions' f := by
  funext key
  rw [Spec.addAll, totalOf_perm h, Spec.addAll]

section Running

variable [LawfulSignedWord ν] {initial : ν} {within : Prop} {t : Tally κ ν} {f : κ → ν}

theorem Spec.addAll_nil (f : κ → ν) : Spec.addAll [] f = f :=
  funext fun key => SignedWord.plus_zero (f key)

theorem Spec.addAll_cons (e : κ × ν) (rest : List (κ × ν)) (f : κ → ν) :
    Spec.addAll (e :: rest) f =
      Spec.addAll rest (Spec.set f e.1 (SignedWord.plus (f e.1) (SignedWord.toInt e.2))) := by
  funext key
  simp only [Spec.addAll, totalOf, List.map_cons, List.sum_cons, Spec.set, Function.update_apply]
  by_cases h : key = e.1
  · rw [if_pos h, if_pos h.symm, h, SignedWord.plus_plus]
  · rw [if_neg h, if_neg (Ne.symm h), Int.zero_add]

/-- An addition, through whichever operation, sets the count of its key to the sum. -/
theorem Represents.addition (h : t.Represents initial within f) {op : Operation κ ν} {e : κ × ν}
    (hop : op.added? = some e) :
    ∃ value, Changes initial within (op.perform t).toChange
      (.done (Spec.set f e.1 (SignedWord.plus (f e.1) (SignedWord.toInt e.2))) value) := by
  have hadd := h.add e.1 e.2
  -- All operations that add are one function, read in different ways.
  cases op <;> cases hop <;>
    exact ⟨_, (h.searching (.quiet ((hadd.map _).map _))).toChange⟩

/-- **A list of additions adds up the amounts for each key.** -/
theorem Represents.performAll {ops : List (Operation κ ν)} {additions : List (κ × ν)}
    (h : t.Represents initial within f) (hadds : Adds ops additions) :
    Changes initial within (performAll ops t) (.done (Spec.addAll additions f) ()) := by
  induction hadds generalizing t f with
  | nil =>
      rw [Spec.addAll_nil]
      exact .done h ()
  | @cons op e rest additions hop _ ih =>
      rw [Spec.addAll_cons]
      obtain ⟨value, hfirst⟩ := h.addition hop
      change Changes initial within ((op.perform t).toChange.andThen fun t _ => Tally.performAll rest t)
        ((Change.done (Spec.set f e.1 _) value).andThen fun f _ => .done (Spec.addAll additions f) ())
      exact hfirst.andThen fun _ hstate _ => ih hstate

end Running

/-! ### Tallies with the same counts -/

/-- Two tallies are equal and have the same length, hash code and extreme counts. -/
structure SameCounts [Digest] [ContentHash κ] [ContentHash ν] (t u : Tally κ ν) : Prop where
  beq : (t == u) = true
  len : t.len = u.len
  hashCode : t.hashCode = u.hashCode
  minimum : t.minimum = u.minimum
  maximum : t.maximum = u.maximum

/-- Two changes succeed and leave tallies with the same counts. -/
structure EndsAlike [Digest] [ContentHash κ] [ContentHash ν] (c d : Change (Tally κ ν) Unit) : Prop where
  left : c.result = .ok ()
  right : d.result = .ok ()
  same : SameCounts c.state d.state

section Comparing

variable {initial : ν} {t u : Tally κ ν} {f : κ → ν}

omit [SignedWord κ] [SignedWord ν] in
/-- A counting function has one support, up to order. -/
theorem Support.perm_of_support {l l' : List (κ × ν)} (h : Support initial f l)
    (h' : Support initial f l') : l.Perm l' :=
  (List.perm_ext_iff_of_nodup h.distinct.of_map h'.distinct.of_map).mpr fun e =>
    (h.mem_iff e).trans (h'.mem_iff e).symm

omit [SignedWord κ] in
/-- A counting function has one extreme count. -/
theorem Extreme.unique [LawfulSignedWord ν] {before : Int → Int → Prop}
    (hantisymm : ∀ i j, before i j → before j i → i = j) {count count' : ν}
    (h : Extreme before initial f count) (h' : Extreme before initial f count') : count = count' := by
  obtain ⟨hnone, rfl⟩ | ⟨⟨key, rfl⟩, hne, hall⟩ := h
  · obtain ⟨-, rfl⟩ | ⟨⟨key, rfl⟩, hne, -⟩ := h'
    · rfl
    · exact absurd (hnone key) hne
  · obtain ⟨hnone, -⟩ | ⟨⟨key', rfl⟩, hne', hall'⟩ := h'
    · exact absurd (hnone key) hne
    · exact SignedWord.toInt_injective (hantisymm _ _ (hall key' hne') (hall' key hne))

theorem Represents.beq (ht : t.Represents initial False f) (hu : u.Represents initial False f) :
    (t == u) = true := by
  have hperm : t.entries.Perm u.entries := ht.support.perm_of_support hu.support
  have hinitial : t.initial = u.initial := ht.initial_eq.trans hu.initial_eq.symm
  obtain ⟨M, hM, -⟩ := ht
  obtain ⟨N, hN, -⟩ := hu
  have hsame : (t.counts == u.counts) = true :=
    (hM.of_entries.beq_iff hN.of_entries).mpr (.of_perm sameEntry_equivalence hperm)
  change (decide (t.initial = u.initial) && t.counts == u.counts) = true
  rw [hsame, decide_eq_true hinitial, Bool.and_self]

/-- **Tallies that stand for one counting function have the same counts.** -/
theorem Represents.sameCounts [LawfulSignedWord ν] [Digest] [ContentHash κ] [ContentHash ν]
    (ht : t.Represents initial False f) (hu : u.Represents initial False f) : SameCounts t u where
  beq := ht.beq hu
  len := by
    rw [ht.len_eq, hu.len_eq, (ht.support.perm_of_support hu.support).length_eq]
  hashCode := mapContentHash_perm (ht.support.perm_of_support hu.support)
  minimum := ht.minimum.unique (fun _ _ => le_antisymm) hu.minimum
  maximum := ht.maximum.unique (fun _ _ => ge_antisymm) hu.maximum

end Comparing

theorem Reachable.represents {t : Tally κ ν} (h : t.Reachable) :
    ∃ initial f, t.Represents initial False f := by
  obtain ⟨initial, hcounts⟩ := h.counts.represents
  exact ⟨initial, _, represents_mk hcounts⟩

/-! ### Every order of additions -/

/-- **Additions in another order, and through other operations, end with the same counts**, unless one of
them fails to grow the table. -/
theorem endsAlike_of_perm [LawfulSignedWord ν] [Digest] [ContentHash κ] [ContentHash ν] {t : Tally κ ν}
    {ops ops' : List (Operation κ ν)} {additions additions' : List (κ × ν)} (ht : t.Reachable)
    (hadds : Adds ops additions) (hadds' : Adds ops' additions') (hperm : additions.Perm additions')
    (hno : (performAll ops t).result ≠ .error .capacityOverflow)
    (hno' : (performAll ops' t).result ≠ .error .capacityOverflow) :
    EndsAlike (performAll ops t) (performAll ops' t) := by
  obtain ⟨initial, f, h⟩ := ht.represents
  obtain ⟨hleft, hstate⟩ := (h.performAll hadds).succeeds hno
  obtain ⟨hright, hstate'⟩ := (h.performAll hadds').succeeds hno'
  rw [← Spec.addAll_perm hperm f] at hstate'
  exact ⟨hleft, hright, hstate.sameCounts hstate'⟩

/-- Six counts are brought half way around and back to the initial value, one of which ends at another:
first all half way, so that the table grows, or each there and back before the next. -/
theorem endsAlike_of_perm_grown :
    let half : Int32 := -2147483648
    let keys : List Int32 := [1, 2, 3, 4, 5, 6]
    let t : Tally Int32 Int32 := finalState Operation.perform [.set 1 10, .getAndDecrement 9] (.empty 7)
    let ops := keys.map (Operation.addAndGet · half) ++ keys.map (Operation.getAndAdd · half) ++
      [.incrementAndGet 3]
    let ops' := .getAndIncrement 3 :: keys.flatMap fun key => [.getAndAdd key half, .addAndGet key half]
    let additions := keys.map (·, half) ++ keys.map (·, half) ++ [(3, 1)]
    let additions' := (3, 1) :: keys.flatMap fun key => [(key, half), (key, half)]
    t.Reachable ∧ Adds ops additions ∧ Adds ops' additions' ∧ additions.Perm additions' ∧
      (performAll ops t).result ≠ .error .capacityOverflow ∧
      (performAll ops' t).result ≠ .error .capacityOverflow ∧
      (performAll ops t).state.capacity = 16 ∧ (performAll ops' t).state.capacity = 8 ∧
      EndsAlike (performAll ops t) (performAll ops' t) := by
  intro half keys t ops ops' additions additions'
  have ht : t.Reachable := ⟨{}, 7, _, ofConfig_default 7, .run (by decide +kernel)⟩
  have hadds : Adds ops additions := by unfold Adds; decide
  have hadds' : Adds ops' additions' := by unfold Adds; decide
  have hperm : additions.Perm additions' := by decide
  have hno : (performAll ops t).result ≠ .error .capacityOverflow := by decide +kernel
  have hno' : (performAll ops' t).result ≠ .error .capacityOverflow := by decide +kernel
  exact ⟨ht, hadds, hadds', hperm, hno, hno', by decide +kernel, by decide +kernel,
    endsAlike_of_perm ht hadds hadds' hperm hno hno'⟩

/-- With the least load factor the first addition fails to grow the table, whichever it is. -/
theorem not_endsAlike_least :
    let t : Tally Int32 Int32 := ⟨.ofSizing (.ofCapacity minCapacity ⟨1⟩) .cached 0⟩
    let ops : List (Operation Int32 Int32) := [.addAndGet 1 5, .addAndGet 2 7]
    let ended := performAll ops t
    let ended' := performAll ops.reverse t
    t.Reachable ∧ Adds ops [(1, 5), (2, 7)] ∧ Adds ops.reverse [(2, 7), (1, 5)] ∧
      [((1 : Int32), (5 : Int32)), (2, 7)].Perm [(2, 7), (1, 5)] ∧
      ended.result = .error .capacityOverflow ∧ ended'.result = .error .capacityOverflow ∧
      ¬ SameCounts ended.state ended'.state ∧ ¬ EndsAlike ended ended' := by
  intro t ops ended ended'
  have hnew : ofConfig { loadFactor := ⟨1⟩ } 0 = .ok t := by
    rw [ofConfig, WordMap.ofConfig, ofConfig_least]
    rfl
  have ht : t.Reachable := ⟨_, 0, t, hnew, reaches_self _ _ _⟩
  have hended : ended.result = .error .capacityOverflow ∧ ended'.result = .error .capacityOverflow ∧
      ended.state.maximum ≠ ended'.state.maximum := by
    decide +kernel
  obtain ⟨hfailed, hfailed', hmaximum⟩ := hended
  refine ⟨ht, .cons rfl (.cons rfl .nil), .cons rfl (.cons rfl .nil), .swap _ _ _, hfailed, hfailed', ?_, ?_⟩
  · exact fun hsame => hmaximum hsame.maximum
  · exact fun halike => hmaximum halike.same.maximum

end LinearProbing.Tally
