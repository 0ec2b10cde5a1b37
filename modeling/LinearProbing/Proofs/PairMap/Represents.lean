import LinearProbing.Proofs.PairMap.Operation
import LinearProbing.Proofs.Reachable
import LinearProbing.Proofs.ValueMap.Refinement

/-!
# LinearProbing.Proofs.PairMap.Represents

**Maps keyed by pairs of words.** Pairs and the words that stand for them correspond to each other
(`splitKey_composeKey`, `composeKey_splitKey`), and the map inside holds no nulls, in any state that is
reached (`PairMap.exists_of_reaches`). After a call that does what is specified, this is a matter of finite
maps. After one that fails to grow the table it is not: what is left then is the map with one more entry,
which is a value (`ValueMap.FillsOnFailure`).
-/

namespace LinearProbing

/-! ### Pairs as words -/

theorem toNat_composeKey (a b : Int32) :
    (composeKey a b).toUInt64.toNat = a.toUInt32.toNat * 2 ^ 32 + b.toUInt32.toNat := by
  have ha := a.toUInt32.toNat_lt
  have hb := b.toUInt32.toNat_lt
  have hshift : (a.toUInt32.toUInt64 <<< 32).toNat = a.toUInt32.toNat <<< 32 := by
    simp only [UInt64.toNat_shiftLeft, UInt32.toNat_toUInt64]
    rw [show UInt64.toNat 32 % 64 = 32 from rfl, Nat.shiftLeft_eq]
    exact Nat.mod_eq_of_lt (by omega)
  rw [composeKey, UInt64.toUInt64_toInt64, UInt64.toNat_or, hshift, UInt32.toNat_toUInt64,
    ← Nat.shiftLeft_add_eq_or_of_lt hb, Nat.shiftLeft_eq]

theorem toNat_fst_splitKey (k : Int64) :
    (splitKey k).1.toUInt32.toNat = k.toUInt64.toNat / 2 ^ 32 := by
  have h := k.toUInt64.toNat_lt
  simp [splitKey, Nat.shiftRight_eq_div_pow]
  omega

theorem toNat_snd_splitKey (k : Int64) :
    (splitKey k).2.toUInt32.toNat = k.toUInt64.toNat % 2 ^ 32 := by
  simp [splitKey]

theorem splitKey_composeKey (a b : Int32) : splitKey (composeKey a b) = (a, b) := by
  have hb := b.toUInt32.toNat_lt
  have hfst : (splitKey (composeKey a b)).1.toUInt32.toNat = a.toUInt32.toNat := by
    rw [toNat_fst_splitKey, toNat_composeKey]
    omega
  have hsnd : (splitKey (composeKey a b)).2.toUInt32.toNat = b.toUInt32.toNat := by
    rw [toNat_snd_splitKey, toNat_composeKey]
    omega
  have hinjective := Function.LeftInverse.injective Int32.toInt32_toUInt32
  exact Prod.ext (hinjective (UInt32.toNat_inj.mp hfst)) (hinjective (UInt32.toNat_inj.mp hsnd))

theorem composeKey_splitKey (k : Int64) : composeKey (splitKey k).1 (splitKey k).2 = k := by
  refine Function.LeftInverse.injective Int64.toInt64_toUInt64 (UInt64.toNat_inj.mp ?_)
  rw [toNat_composeKey, toNat_fst_splitKey, toNat_snd_splitKey]
  exact Nat.div_add_mod' ..

namespace ValueMap

variable {σ η κ ν α β γ : Type} [EntrySlot σ κ ν] [KeyHash η κ] [BEq κ]
variable {m : ValueMap σ η κ ν} {key : κ} {value : ν} {index : Nat}

/-! ### Failing to grow -/

/-- A change that fails to grow the table has put a value into a vacant slot, and done nothing else. -/
def FillsOnFailure (m : ValueMap σ η κ ν) (c : Change (ValueMap σ η κ ν) α) : Prop :=
  c.result = .error .capacityOverflow → ∃ index key value, m.locate key = .vacant index ∧
    c.state = (m.insertAt index (m.hashOf key) key (some value)).state

theorem FillsOnFailure.of_ne {c : Change (ValueMap σ η κ ν) α}
    (h : c.result ≠ .error .capacityOverflow) : FillsOnFailure m c :=
  fun hoverflow => absurd hoverflow h

theorem FillsOnFailure.map {c : Change (ValueMap σ η κ ν) α} (h : FillsOnFailure m c) (f : α → β) :
    FillsOnFailure m (c.map f) :=
  fun hoverflow => h (Change.map_eq_error_iff.mp hoverflow)

theorem FillsOnFailure.run {arguments : γ} {reply : Reply β} {broken : ValueMap σ η κ ν}
    {next : β → Change (ValueMap σ η κ ν) α} (h : ∀ answer, FillsOnFailure m (next answer)) :
    FillsOnFailure m (Call.run arguments reply broken next).toChange := by
  cases reply with
  | panics => exact .of_ne nofun
  | answers answer => exact h answer

theorem fillsOnFailure_insertAt (hlocate : m.locate key = .vacant index) (value : ν) :
    FillsOnFailure m (m.insertAt index (m.hashOf key) key (some value)) :=
  fun _ => ⟨index, key, value, hlocate, rfl⟩

theorem fillsOnFailure_insertValueAt (hlocate : m.locate key = .vacant index) (value : ν) :
    FillsOnFailure m (m.insertValueAt index (m.hashOf key) key value) := by
  intro hoverflow
  refine ⟨index, key, value, hlocate, ?_⟩
  unfold insertValueAt Change.andThen at hoverflow ⊢
  cases hresult : (m.insertAt index (m.hashOf key) key (some value)).result with
  | ok place => simp [hresult, Change.done] at hoverflow
  | error failure => rfl

omit [KeyHash η κ] [BEq κ] in
theorem settle_result_ne (m : ValueMap σ η κ ν) (hash : UInt64) (computed : Option ν) :
    (m.settle index hash key computed).result ≠ .error .capacityOverflow := by
  cases computed <;> exact nofun

theorem fillsOnFailure_store (m : ValueMap σ η κ ν) (key : κ) (value : ν) :
    FillsOnFailure m (m.store key (some value)) := by
  unfold store
  split
  · exact .of_ne nofun
  · next hlocate => exact (fillsOnFailure_insertAt hlocate value).map _
  · exact .of_ne nofun

theorem fillsOnFailure_insertIfAbsent (m : ValueMap σ η κ ν) (key : κ) (value : ν) :
    FillsOnFailure m (m.insertIfAbsent key value) := by
  unfold insertIfAbsent
  split
  · split <;> exact .of_ne nofun
  · next hlocate => exact (fillsOnFailure_insertAt hlocate value).map _
  · exact .of_ne nofun

theorem fillsOnFailure_computeIfAbsent (m : ValueMap σ η κ ν) (key : κ) (f : κ → Reply (Option ν)) :
    FillsOnFailure m (m.computeIfAbsent key f).toChange := by
  unfold computeIfAbsent
  split
  · split
    · exact .of_ne nofun
    · exact .run fun computed => by cases computed <;> exact .of_ne nofun
  · next hlocate =>
    refine .run fun computed => ?_
    cases computed with
    | none => exact .of_ne nofun
    | some value => exact fillsOnFailure_insertValueAt hlocate value
  · exact .of_ne nofun

theorem fillsOnFailure_computeIfPresent (m : ValueMap σ η κ ν) (key : κ)
    (f : κ → ν → Reply (Option ν)) : FillsOnFailure m (m.computeIfPresent key f).toChange := by
  unfold computeIfPresent
  split
  · split
    · exact .of_ne nofun
    · exact .of_ne nofun
    · exact .run fun computed => .of_ne (settle_result_ne _ _ _)
  · exact .of_ne nofun
  · exact .of_ne nofun

theorem fillsOnFailure_compute (m : ValueMap σ η κ ν) (key : κ)
    (f : κ → Option ν → Reply (Option ν)) : FillsOnFailure m (m.compute key f).toChange := by
  unfold compute
  split
  · exact .run fun computed => .of_ne (settle_result_ne _ _ _)
  · next hlocate =>
    refine .run fun computed => ?_
    cases computed with
    | none => exact .of_ne nofun
    | some value => exact fillsOnFailure_insertValueAt hlocate value
  · exact .of_ne nofun

theorem fillsOnFailure_merge (m : ValueMap σ η κ ν) (key : κ) (value : ν)
    (f : ν → ν → Reply (Option ν)) : FillsOnFailure m (m.merge key value f).toChange := by
  unfold merge
  split
  · dsimp only
    split
    · exact .run fun computed => .of_ne (settle_result_ne _ _ _)
    · exact .of_ne (settle_result_ne _ _ _)
  · next hlocate => exact fillsOnFailure_insertValueAt hlocate value
  · exact .of_ne nofun

/-! ### No nulls -/

variable [EquivBEq κ] {hashing : η} {policy : NullPolicy} {within : Prop} {M : FiniteMap κ (Option ν)}

/-- A failure to grow leaves no nulls where there were none. -/
theorem Represents.nullFree_of_overflow (h : m.Represents hashing policy within M)
    (hE : LawfulSlots σ hashing) (hfree : m.NullFree) {c : Change (ValueMap σ η κ ν) α}
    (hfills : FillsOnFailure m c) (hoverflow : c.result = .error .capacityOverflow) :
    c.state.NullFree := by
  obtain ⟨i, key, value, hlocate, hstate⟩ := hfills hoverflow
  have hsought := h.sought hE key
  rw [hlocate] at hsought
  cases hsought with
  | vacant located _ =>
      have hinserted := h.table.toWellFormed.insertAt hE located
        (EntryLayout.anyEntry key (some value))
      rw [hstate, hashOf, h.hashing_eq]
      intro e he
      rcases List.mem_cons.mp (hinserted.entries.mem_iff.mp he) with rfl | he
      · exact Option.some_ne_none value
      · exact hfree e he

theorem Represents.nullFree_of_agrees [BEq ν] (h : m.Represents hashing .nonNull within M)
    (hfree : m.NullFree) {op : Operation σ η κ ν} {d : OperationCall (FiniteMap κ (Option ν)) κ ν}
    (hcopy : ∀ other, op ≠ .insertAll other) (hallowed : op.Allows .nonNull M d)
    {n : ValueMap σ η κ ν} (hn : n.Represents hashing .nonNull within d.state) : n.NullFree := by
  obtain ⟨order, horder, rfl⟩ := hallowed
  have hnone : Spec.NullsUnder (fun _ => False) M := h.nullsUnder_iff.mp hfree
  exact hn.nullsUnder_iff.mpr
    (op.nullsUnder_specify (fun _ => id) hnone horder fun other hop => absurd hop (hcopy other))

/-- Storing the entries of a list leaves no nulls where there were none. -/
theorem Represents.nullFree_extend [BEq ν] (h : m.Represents hashing .nonNull within M)
    (hE : LawfulSlots σ hashing) (hfree : m.NullFree) (entries : List (κ × ν)) :
    (m.extend entries).state.NullFree := by
  induction entries generalizing m M with
  | nil => exact hfree
  | cons e rest ih =>
      have hallowed : (Operation.insert e.1 e.2 : Operation σ η κ ν).Allows .nonNull M
          ((Operation.insert e.1 e.2 : Operation σ η κ ν).specify .nonNull M.entries M) :=
        ⟨_, List.Perm.refl _, rfl⟩
      rw [ValueMap.extend, Change.forEach, Change.andThen]
      -- a step that overflows ends the copy; the entries stored before it are no nulls either
      rcases h.store hE e.1 (some e.2) with hagrees | ⟨hoverflow, -⟩
      · have hresult : (m.insert e.1 e.2).result = .ok (Spec.read M e.1) := hagrees.result
        rw [hresult]
        exact ih hagrees.state (h.nullFree_of_agrees hfree (by simp) hallowed hagrees.state)
      · have hresult : (m.insert e.1 e.2).result = .error .capacityOverflow := hoverflow
        rw [hresult]
        change (m.store e.1 (some e.2)).state.NullFree
        exact h.nullFree_of_overflow hE hfree (fillsOnFailure_store m e.1 e.2) hoverflow

end ValueMap

namespace PairMap

open ValueMap (FillsOnFailure)

variable {ν : Type} [BEq ν] {within : Prop} {m : WordKeyMap Int64 ν} {M : FiniteMap Int64 (Option ν)}

/-- An operation that stores at most one entry has stored that one if it fails to grow the table. A
compaction may fail too, but grows nothing. -/
theorem Operation.fillsOnFailure (op : Operation ν) (hop : ∀ entries, op ≠ .extend entries)
    (hcompact : op ≠ .compact) (h : m.Represents {} .nonNull within M) :
    FillsOnFailure m (op.onInner.perform m).toChange := by
  have hE : ValueMap.LawfulSlots (WordSlot Int64 ν) ({} : Spreading) := wordSlot_lawful {}
  have hsweep : ∀ selects, FillsOnFailure m (m.eraseWhere selects).toChange := fun selects =>
    .of_ne fun hoverflow => ((h.eraseWhere hE selects).ends _ hoverflow).1 rfl
  -- only insertions fill a slot; the rest cannot overflow, so the claim is void of them
  cases op with
  | extend entries => exact absurd rfl (hop entries)
  | insert pair value => exact (ValueMap.fillsOnFailure_store m _ value).map _
  | insertIfAbsent pair value => exact (ValueMap.fillsOnFailure_insertIfAbsent m _ value).map _
  | eraseWhere selects => exact (hsweep _).map _
  | retain keeps => exact (hsweep _).map _
  | compact => exact absurd rfl hcompact
  | computeIfAbsent pair f => exact (ValueMap.fillsOnFailure_computeIfAbsent m _ _).map _
  | computeIfPresent pair f => exact (ValueMap.fillsOnFailure_computeIfPresent m _ _).map _
  | compute pair f => exact (ValueMap.fillsOnFailure_compute m _ _).map _
  | merge pair value f => exact (ValueMap.fillsOnFailure_merge m _ value f).map _
  | forEach f =>
      have hshown : (m.forEach (onShown f)).Agrees Eq (m.forEach (onShown f)) := .forEach rfl _ _
      exact .of_ne fun hoverflow => (hshown.ends.map _ _ hoverflow).1 rfl
  | get? | contains | replace | modify | erase | eraseIfValue => exact .of_ne Call.searching_result_ne
  | containsValue | len | clear | copy => exact .of_ne nofun

/-- **No operation on pairs makes a null.** -/
theorem Operation.nullFree (op : Operation ν) (h : m.Represents {} .nonNull within M)
    (hfree : m.NullFree) : (op.onInner.perform m).state.NullFree := by
  have hE : ValueMap.LawfulSlots (WordSlot Int64 ν) ({} : Spreading) := wordSlot_lawful {}
  have hcopy : ∀ other, op.onInner ≠ .insertAll other := by
    intro other
    cases op <;> exact nofun
  -- a step that ends well means what its specification says; one that overflowed left a slot filled
  obtain ⟨d, hallowed, hagrees | ⟨hoverflow, -⟩⟩ := h.perform hE op.onInner
  · exact h.nullFree_of_agrees hfree hcopy hallowed hagrees.state
  · -- copying many entries and compacting overflow in their own ways
    by_cases hop : ∃ entries, op = .extend entries
    · obtain ⟨entries, rfl⟩ := hop
      exact h.nullFree_extend hE hfree _
    by_cases hcompact : op = .compact
    · subst hcompact
      exact fun e he => hfree e ((h.table.toWellFormed.compact hE).2.1.mem_iff.mp he)
    · exact h.nullFree_of_overflow hE hfree
        (op.fillsOnFailure (fun entries heq => hop ⟨entries, heq⟩) hcompact h) hoverflow

/-- **What a map of pairs reaches is a finite map without nulls.** -/
theorem exists_of_reaches {config : TableConfig} {new reached : PairMap ν} (hnew : ofConfig config = .ok new)
    (hreached : Reaches (fun m => m.inner.table) Operation.perform new reached) :
    ∃ M, reached.inner.Represents {} .nonNull False M ∧ reached.inner.NullFree := by
  have hE : ValueMap.LawfulSlots (WordSlot Int64 ν) ({} : Spreading) := wordSlot_lawful {}
  obtain ⟨inner, hinner, rfl⟩ := exists_of_map_eq_ok hnew
  have hstart : inner.Represents {} .nonNull False {} := ValueMap.represents_of_ofConfig hE hinner
  refine hreached.induction
    (P := fun m => ∃ M, m.inner.Represents {} .nonNull False M ∧ m.inner.NullFree) ⟨{}, hstart, ?_⟩ ?_ ?_
  · exact fun e he => absurd (hstart.table.entries.mem_iff.mp he) List.not_mem_nil
  · -- the invariant is the meaning together with the absence of nulls; an overflow keeps both as long as a
    -- slot is left vacant
    rintro op m ⟨M, hM, hfree⟩ hserved
    obtain ⟨hstate, hfailure⟩ := op.wraps m
    rw [hstate]
    obtain ⟨d, -, hagrees | ⟨hoverflow, -⟩⟩ := hM.perform hE op.onInner
    · exact ⟨_, hagrees.state, op.nullFree hM hfree⟩
    · exact absurd ((hfailure _).mpr hoverflow) hserved
  · rintro op m ⟨M, hM, hfree⟩ hvacant
    obtain ⟨hstate, -⟩ := op.wraps m
    rw [hstate] at hvacant ⊢
    obtain ⟨d, -, hagrees | ⟨-, hbroken⟩⟩ := hM.perform hE op.onInner
    · exact ⟨_, hagrees.state, op.nullFree hM hfree⟩
    · obtain ⟨N, hN⟩ := (ValueMap.probing hE .nonNull).of_overfull hbroken hvacant
      exact ⟨N, hN, op.nullFree hM hfree⟩

end PairMap

end LinearProbing
