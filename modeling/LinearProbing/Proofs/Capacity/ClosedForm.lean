import LinearProbing.Hash.Choice
import LinearProbing.Hash.Polynomial
import LinearProbing.KeySet
import LinearProbing.Proofs.Capacity.Containers
import LinearProbing.Proofs.PairMap.Operation
import LinearProbing.Proofs.Tally.Operation

/-!
# LinearProbing.Proofs.Capacity.ClosedForm

**The capacity is a closed function of the history**, for all containers over a probing table
(`capacity_of_run`): it is the greater of the capacity at the base point and the capacity that the greatest
number of entries since then needs. The base point is when the container was built, or when it was last
compacted.
-/

namespace LinearProbing

variable {τ υ ω χ γ δ α β σ : Type} {inner : τ → υ}

/-! ### Containers around other containers -/

theorem Change.Gains.of_wraps {table : υ → Table σ} {c : Change τ α} {d : Change υ β} {s : τ}
    (h : d.Gains table (inner s)) (hw : c.Wraps inner d) : c.Gains (fun s => table (inner s)) s := by
  rcases h with hoverflow | ⟨hends, hgains⟩
  · exact Or.inl ((hw.failure _).mpr hoverflow)
  · refine Or.inr ⟨fun failure hfailure => hends failure ((hw.failure failure).mp hfailure), ?_⟩
    simpa only [hw.state] using hgains

theorem Change.Sized.of_wraps {table : υ → Table σ} {c : Change τ α} {d : Change υ β} {s : τ}
    (h : d.Sized table (inner s)) (hw : c.Wraps inner d) : c.Sized (fun s => table (inner s)) s :=
  h.imp (fun hgains => hgains.of_wraps hw) fun hkeeps => by simpa only [hw.state] using hkeeps

/-- A container does to its size what the one inside does. What may add entries may also remove them. -/
theorem Resizing.of_wraps {table : υ → Table σ} {perform : ω → τ → Call τ γ α}
    {perform' : χ → υ → Call υ δ β} {effect : ω → Effect} {effect' : χ → Effect}
    (h : Resizing table perform' effect')
    (hwraps : ∀ op s, ∃ op', (perform op s).toChange.Wraps inner (perform' op' (inner s)).toChange ∧
      (effect' op' = effect op ∨ effect op = .inserts ∧ effect' op' = .keeps))
    (hnever : ∀ op, effect op ≠ .renews) :
    Resizing (fun s => table (inner s)) perform effect where
  keeps {op} heffect s := by
    obtain ⟨op', hw, hsame | ⟨hinserts, -⟩⟩ := hwraps op s
    · simpa only [hw.state] using h.keeps (hsame.trans heffect) (inner s)
    · exact absurd (heffect.symm.trans hinserts) nofun
  inserts {op} heffect s hfits := by
    obtain ⟨op', hw, hsame | ⟨-, hkeeps⟩⟩ := hwraps op s
    · exact (h.inserts (hsame.trans heffect) hfits).of_wraps hw
    · -- an operation declared to insert may be carried out by one that keeps the size
      refine Or.inr ?_
      simpa only [hw.state] using h.keeps hkeeps (inner s)
  compacts {op} heffect s hfits := by
    obtain ⟨op', hw, hsame | ⟨hinserts, -⟩⟩ := hwraps op s
    · obtain ⟨⟨value, hvalue⟩, hcompacts⟩ := h.compacts (hsame.trans heffect) hfits
      exact ⟨hw.of_ok hvalue, by simpa only [hw.state] using hcompacts⟩
    · exact absurd (heffect.symm.trans hinserts) nofun
  renews {op} heffect := absurd heffect (hnever op)

namespace PairMap

variable {ν : Type}

def table (m : PairMap ν) : Table (WordSlot Int64 ν) := m.inner.table

def Operation.effect (op : Operation ν) : Effect := op.onInner.effect

theorem resizing [BEq ν] : Resizing table (Operation.perform (ν := ν)) Operation.effect :=
  ValueMap.resizing.of_wraps (fun op m => ⟨op.onInner, op.wraps m, Or.inl rfl⟩)
    fun op => by cases op <;> exact nofun

end PairMap

namespace Tally

variable {κ ν : Type}

def table (t : Tally κ ν) : Table (κ × ν) := t.counts.table

def Operation.effect : Operation κ ν → Effect
  | set .. | addAndGet .. | getAndAdd .. | incrementAndGet _ | decrementAndGet _ | getAndIncrement _
  | getAndDecrement _ | computeIfAbsent .. | compute .. => .inserts
  | compact => .compacts
  | get _ | contains _ | len | minimum | maximum | erase _ | computeIfPresent .. | eraseWhere _ | forEach _
  | clear => .keeps

variable [SignedWord κ] [SignedWord ν]

omit [SignedWord κ] in
theorem Operation.effect_onCounts (initial : ν) (op : Operation κ ν) :
    (op.onCounts initial).effect = op.effect ∨
      op.effect = .inserts ∧ (op.onCounts initial).effect = .keeps := by
  -- setting the initial count removes the entry, any other count stores it
  have hsetting : ∀ (key : κ) (count : ν), (setting initial key count).effect = .inserts ∨
      (setting initial key count).effect = .keeps := by
    intro key count
    unfold setting
    split
    · exact Or.inr rfl
    · exact Or.inl rfl
  have hadding : ∀ (key : κ) (amount : ν), (adding key amount).effect = .inserts ∨
      (adding key amount).effect = .keeps := by
    intro key amount
    unfold adding
    split
    · exact Or.inr rfl
    · exact Or.inl rfl
  cases op with
  | set key count => exact (hsetting key count).imp_right fun hkeeps => ⟨rfl, hkeeps⟩
  | addAndGet key amount => exact (hadding key amount).imp_right fun hkeeps => ⟨rfl, hkeeps⟩
  | getAndAdd key amount => exact (hadding key amount).imp_right fun hkeeps => ⟨rfl, hkeeps⟩
  | incrementAndGet key => exact (hadding key _).imp_right fun hkeeps => ⟨rfl, hkeeps⟩
  | decrementAndGet key => exact (hadding key _).imp_right fun hkeeps => ⟨rfl, hkeeps⟩
  | getAndIncrement key => exact (hadding key _).imp_right fun hkeeps => ⟨rfl, hkeeps⟩
  | getAndDecrement key => exact (hadding key _).imp_right fun hkeeps => ⟨rfl, hkeeps⟩
  | _ => exact Or.inl rfl

theorem resizing : Resizing table (Operation.perform (κ := κ) (ν := ν)) Operation.effect :=
  WordMap.resizing.of_wraps
    (fun op t => ⟨op.onCounts t.initial, op.wraps t, op.effect_onCounts t.initial⟩)
    fun op => by cases op <;> exact nofun

end Tally

/-! ### New containers -/

theorem WordMap.describes_ofConfig {κ ν : Type} [SignedWord κ] [SignedWord ν] {config : TableConfig}
    {missing : ν} {m : WordMap κ ν} (h : ofConfig config missing = .ok m) :
    (Footprint.ofConfig config).Describes m.table := by
  obtain ⟨sizing, hsizing, rfl⟩ := exists_of_map_eq_ok h
  exact Footprint.describes_ofConfig hsizing config.mode

theorem ValueMap.describes_ofConfig {σ η κ ν : Type} [EntrySlot σ κ ν] {config : TableConfig}
    {policy : NullPolicy} {hashing : η} {m : ValueMap σ η κ ν}
    (h : ofConfig config policy hashing = .ok m) : (Footprint.ofConfig config).Describes m.table := by
  obtain ⟨sizing, hsizing, rfl⟩ := exists_of_map_eq_ok h
  exact Footprint.describes_ofConfig hsizing config.mode

theorem MemberSet.describes_ofConfig {σ η α : Type} [MemberSlot σ α] {config : TableConfig} {hashing : η}
    {s : MemberSet σ η α} (h : ofConfig config hashing = .ok s) :
    (Footprint.ofConfig config).Describes s.table := by
  obtain ⟨sizing, hsizing, rfl⟩ := exists_of_map_eq_ok h
  exact Footprint.describes_ofConfig hsizing config.mode

theorem WordSet.describes_ofConfig {α : Type} [SignedWord α] {config : TableConfig} {s : WordSet α}
    (h : ofConfig config = .ok s) : (Footprint.ofConfig config).Describes s.table := by
  obtain ⟨members, hmembers, rfl⟩ := exists_of_map_eq_ok h
  exact MemberSet.describes_ofConfig hmembers

theorem PairMap.describes_ofConfig {ν : Type} {config : TableConfig} {m : PairMap ν}
    (h : ofConfig config = .ok m) : (Footprint.ofConfig config).Describes m.table := by
  obtain ⟨words, hwords, rfl⟩ := exists_of_map_eq_ok h
  exact ValueMap.describes_ofConfig hwords

theorem Tally.describes_ofConfig {κ ν : Type} [SignedWord κ] [SignedWord ν] {config : TableConfig}
    {initial : ν} {t : Tally κ ν} (h : ofConfig config initial = .ok t) :
    (Footprint.ofConfig config).Describes t.table := by
  obtain ⟨counts, hcounts, rfl⟩ := exists_of_map_eq_ok h
  exact WordMap.describes_ofConfig hcounts

/-! ### Every run -/

/-- What holds of the capacity of a container in a state `s`, the footprint of whose history is `f`. -/
structure SizedByHistory (table : τ → Table σ) (perform : ω → τ → Call τ γ α) (effect : ω → Effect)
    (f : Footprint) (s : τ) : Prop where
  loadFactor : (table s).sizing.loadFactor = f.loadFactor
  capacity : (table s).capacity = max f.base (neededCapacity f.loadFactor f.peak)
  /-- So many entries need the least power of two at which the load factor allows them. -/
  needed : ∀ len, IsLeast {c : Nat | (∃ k, c = 2 ^ k) ∧ 8 ≤ c ∧
    len ≤ ((c : Rat) * f.loadFactor.value).floor.toNat} (neededCapacity f.loadFactor len)
  /-- What reads, overwrites or removes entries does not change the capacity. -/
  keeps : ∀ op, effect op = .keeps →
    (table (perform op s).state).capacity = (table s).capacity ∧
      (table (perform op s).state).len ≤ (table s).len
  /-- Nor does an insertion that leaves no more entries than there were. -/
  steady : ∀ op, effect op = .inserts → (perform op s).result ≠ .error .capacityOverflow →
    (table (perform op s).state).len ≤ (table s).len →
      (table (perform op s).state).capacity = (table s).capacity
  /-- Nor does a call that is refused, or in which a function of the caller panics. -/
  fails : ∀ op failure, (perform op s).result = .error failure → failure ≠ .capacityOverflow →
    failure ≠ .endlessSearch → (table (perform op s).state).capacity = (table s).capacity
  /-- Growth does not overshoot. -/
  grows : ∀ op, effect op = .inserts → (perform op s).result ≠ .error .capacityOverflow →
    (table (perform op s).state).capacity =
      max (table s).capacity (neededCapacity f.loadFactor (table (perform op s).state).len)
  /-- Compaction never enlarges the table. -/
  compacts : ∀ op, effect op = .compacts →
    (table (perform op s).state).capacity = neededCapacity f.loadFactor (table s).len ∧
      (table (perform op s).state).len = (table s).len ∧
      (table (perform op s).state).capacity ≤ (table s).capacity

/-- After every run of a container from a footprint that describes it. -/
theorem Resizing.sizedByHistory {table : τ → Table σ} {perform : ω → τ → Call τ γ α}
    {effect : ω → Effect} (h : Resizing table perform effect) {f : Footprint} {s : τ}
    (hs : f.Describes (table s)) {ops : List ω} (hno : NoOverflow (trace perform ops s)) :
    SizedByHistory table perform effect (Footprint.along table perform effect ops s f)
      (finalState perform ops s) := by
  have hreached := h.describes_along ops hs hno
  generalize Footprint.along table perform effect ops s f = g at hreached ⊢
  generalize finalState perform ops s = reached at hreached ⊢
  obtain ⟨hfits, hload, -, hcapacity⟩ := hreached
  have hneeded := hfits.neededCapacity_le
  have hunit := hfits.sizing.loadFactor
  rw [hload] at hneeded hunit
  -- an insertion that ends well grows to what its entries need, or not at all
  have hgrows : ∀ op, effect op = .inserts → (perform op reached).result ≠ .error .capacityOverflow →
      (table (perform op reached).state).capacity = max (table reached).capacity
        (neededCapacity g.loadFactor (table (perform op reached).state).len) := by
    intro op heffect hresult
    rw [h.capacity_eq_max hfits (Or.inr heffect) hresult, hload]
  exact
    { loadFactor := hload
      capacity := hcapacity
      needed := isLeast_neededCapacity hunit
      keeps := fun op heffect =>
        ⟨(h.keeps heffect reached).capacity, (h.keeps heffect reached).len_le⟩
      steady := by
        intro op heffect hresult hlen
        rw [hgrows op heffect hresult]
        exact max_eq_left ((neededCapacity_mono hunit hlen).trans hneeded)
      fails := fun op failure => h.capacity_of_error hfits
      grows := hgrows
      compacts := by
        intro op heffect
        have hcompacts := (h.compacts heffect hfits).2
        refine ⟨hload ▸ hcompacts.capacity, hcompacts.len, ?_⟩
        exact hfits.capacity_le_of_compacts hcompacts }

/-- **The capacity is a closed function of the history**, for every probing container, every load factor
and every run in which no insertion fails to grow the table. -/
theorem capacity_of_run :
    (∀ {κ ν : Type} [SignedWord κ] [SignedWord ν] {config : TableConfig} {missing : ν}
        {m : WordMap κ ν}, WordMap.ofConfig config missing = .ok m →
      ∀ ops : List (WordMap.Operation κ ν), NoOverflow (trace WordMap.Operation.perform ops m) →
        SizedByHistory WordMap.table WordMap.Operation.perform WordMap.Operation.effect
          (Footprint.along WordMap.table WordMap.Operation.perform WordMap.Operation.effect ops m
            (.ofConfig config))
          (finalState WordMap.Operation.perform ops m)) ∧
    (∀ {σ η κ ν : Type} [EntrySlot σ κ ν] [KeyHash η κ] [BEq κ] [BEq ν] {config : TableConfig}
        {policy : NullPolicy} {hashing : η} {m : ValueMap σ η κ ν},
        ValueMap.ofConfig config policy hashing = .ok m →
      ∀ ops : List (ValueMap.Operation σ η κ ν), NoOverflow (trace ValueMap.Operation.perform ops m) →
        SizedByHistory ValueMap.table ValueMap.Operation.perform ValueMap.Operation.effect
          (Footprint.along ValueMap.table ValueMap.Operation.perform ValueMap.Operation.effect ops m
            (.ofConfig config))
          (finalState ValueMap.Operation.perform ops m)) ∧
    (∀ {ν : Type} [BEq ν] {config : TableConfig} {m : PairMap ν}, PairMap.ofConfig config = .ok m →
      ∀ ops : List (PairMap.Operation ν), NoOverflow (trace PairMap.Operation.perform ops m) →
        SizedByHistory PairMap.table PairMap.Operation.perform PairMap.Operation.effect
          (Footprint.along PairMap.table PairMap.Operation.perform PairMap.Operation.effect ops m
            (.ofConfig config))
          (finalState PairMap.Operation.perform ops m)) ∧
    (∀ {κ ν : Type} [SignedWord κ] [SignedWord ν] {config : TableConfig} {initial : ν}
        {t : Tally κ ν}, Tally.ofConfig config initial = .ok t →
      ∀ ops : List (Tally.Operation κ ν), NoOverflow (trace Tally.Operation.perform ops t) →
        SizedByHistory Tally.table Tally.Operation.perform Tally.Operation.effect
          (Footprint.along Tally.table Tally.Operation.perform Tally.Operation.effect ops t
            (.ofConfig config))
          (finalState Tally.Operation.perform ops t)) ∧
    (∀ {α : Type} [SignedWord α] {config : TableConfig} {s : WordSet α},
        WordSet.ofConfig config = .ok s →
      ∀ ops : List (WordSet.Operation α), NoOverflow (trace WordSet.Operation.perform ops s) →
        SizedByHistory WordSet.table WordSet.Operation.perform WordSet.Operation.effect
          (Footprint.along WordSet.table WordSet.Operation.perform WordSet.Operation.effect ops s
            (.ofConfig config))
          (finalState WordSet.Operation.perform ops s)) ∧
    (∀ {σ η α : Type} [MemberSlot σ α] [KeyHash η α] [BEq α] {config : TableConfig} {hashing : η}
        {s : MemberSet σ η α}, MemberSet.ofConfig config hashing = .ok s →
      ∀ ops : List (MemberSet.Operation σ η α), NoOverflow (trace MemberSet.Operation.perform ops s) →
        SizedByHistory MemberSet.table MemberSet.Operation.perform MemberSet.Operation.effect
          (Footprint.along MemberSet.table MemberSet.Operation.perform MemberSet.Operation.effect ops s
            (.ofConfig config))
          (finalState MemberSet.Operation.perform ops s)) := by
  refine ⟨?_, ?_, ?_, ?_, ?_, ?_⟩
  · -- every part is the same history of table sizes, read through the container
    intro κ ν _ _ config missing m hm ops hno
    exact WordMap.resizing.sizedByHistory (WordMap.describes_ofConfig hm) hno
  · intro σ η κ ν _ _ _ _ config policy hashing m hm ops hno
    exact ValueMap.resizing.sizedByHistory (ValueMap.describes_ofConfig hm) hno
  · intro ν _ config m hm ops hno
    exact PairMap.resizing.sizedByHistory (PairMap.describes_ofConfig hm) hno
  · intro κ ν _ _ config initial t ht ops hno
    exact Tally.resizing.sizedByHistory (Tally.describes_ofConfig ht) hno
  · intro α _ config s hs ops hno
    exact WordSet.resizing.sizedByHistory (WordSet.describes_ofConfig hs) hno
  · intro σ η α _ _ _ config hashing s hs ops hno
    exact MemberSet.resizing.sizedByHistory (MemberSet.describes_ofConfig hs) hno

/-- Runs of all six containers with a load factor of one in 64. A table of eight slots then has the
threshold zero, so the first entry doubles it three times; the second one doubles it once more, and once it
is gone a compaction halves the table. -/
theorem capacity_of_run_sparse :
    let sparse : TableConfig := { loadFactor := ⟨0x3c800000⟩ }
    let wordOps : List (WordMap.Operation Int32 Int32) :=
      [.insert 1 10, .insert 9 90, .insert 1 (-1), .erase 9, .compute 1 fun _ _ => .panics, .compact]
    let wordKeyOps : List (ValueMap.Operation (WordSlot Int64 Int32) Spreading Int64 Int32) :=
      [.insert 1 10, .insertNull 9, .compute 1 fun _ _ => .panics, .compact]
    let pairOps : List (PairMap.Operation Int32) :=
      [.extend [((1, 2), 10), ((2, 1), 20)], .retain fun pair _ => .answers (pair.1 == 1), .compact]
    let tallyOps : List (Tally.Operation Int32 Int32) :=
      [.incrementAndGet 5, .set 6 2, .addAndGet 6 (-2), .compact]
    let wordSetOps : List (WordSet.Operation Int32) := [.extend [-1, 1, 2], .erase 2, .compact]
    let keySetOps : List (MemberSet.Operation (Option (HashedMember String)) (Mixed HasherChoice)
        String) :=
      [.extend ["a", "b"], .take "a", .compact]
    let words : WordMap Int32 Int32 := .ofSizing (.ofCapacity 8 sparse.loadFactor) .cached (-1)
    let wordKeys : WordKeyMap Int64 Int32 :=
      .ofSizing (.ofCapacity 8 sparse.loadFactor) .cached .nullable {}
    let pairs : PairMap Int32 := ⟨.ofSizing (.ofCapacity 8 sparse.loadFactor) .cached .nonNull {}⟩
    let tally : Tally Int32 Int32 := ⟨.ofSizing (.ofCapacity 8 sparse.loadFactor) .cached 0⟩
    let wordSet : WordSet Int32 := ⟨.ofSizing (.ofCapacity 8 sparse.loadFactor) .cached {}, false⟩
    let keySet : KeySet HasherChoice String :=
      .ofSizing (.ofCapacity 8 sparse.loadFactor) .cached ⟨.constant 7⟩
    (WordMap.ofConfig sparse (-1) = .ok words ∧
      NoOverflow (trace WordMap.Operation.perform wordOps words) ∧
      ((trace WordMap.Operation.perform wordOps words).map fun c => c.state.capacity) =
        [64, 128, 128, 128, 128, 64] ∧
      SizedByHistory WordMap.table WordMap.Operation.perform WordMap.Operation.effect
        (Footprint.along WordMap.table WordMap.Operation.perform WordMap.Operation.effect wordOps words
          (.ofConfig sparse))
        (finalState WordMap.Operation.perform wordOps words)) ∧
    (ValueMap.ofConfig sparse .nullable {} = .ok wordKeys ∧
      NoOverflow (trace ValueMap.Operation.perform wordKeyOps wordKeys) ∧
      ((trace ValueMap.Operation.perform wordKeyOps wordKeys).map fun c => c.state.capacity) =
        [64, 128, 128, 64] ∧
      SizedByHistory ValueMap.table ValueMap.Operation.perform ValueMap.Operation.effect
        (Footprint.along ValueMap.table ValueMap.Operation.perform ValueMap.Operation.effect wordKeyOps
          wordKeys (.ofConfig sparse))
        (finalState ValueMap.Operation.perform wordKeyOps wordKeys)) ∧
    (PairMap.ofConfig sparse = .ok pairs ∧
      NoOverflow (trace PairMap.Operation.perform pairOps pairs) ∧
      ((trace PairMap.Operation.perform pairOps pairs).map fun c => c.state.capacity) =
        [128, 128, 64] ∧
      SizedByHistory PairMap.table PairMap.Operation.perform PairMap.Operation.effect
        (Footprint.along PairMap.table PairMap.Operation.perform PairMap.Operation.effect pairOps pairs
          (.ofConfig sparse))
        (finalState PairMap.Operation.perform pairOps pairs)) ∧
    (Tally.ofConfig sparse 0 = .ok tally ∧
      NoOverflow (trace Tally.Operation.perform tallyOps tally) ∧
      ((trace Tally.Operation.perform tallyOps tally).map fun c => c.state.capacity) =
        [64, 128, 128, 64] ∧
      SizedByHistory Tally.table Tally.Operation.perform Tally.Operation.effect
        (Footprint.along Tally.table Tally.Operation.perform Tally.Operation.effect tallyOps tally
          (.ofConfig sparse))
        (finalState Tally.Operation.perform tallyOps tally)) ∧
    (WordSet.ofConfig sparse = .ok wordSet ∧
      NoOverflow (trace WordSet.Operation.perform wordSetOps wordSet) ∧
      ((trace WordSet.Operation.perform wordSetOps wordSet).map fun c => c.state.capacity) =
        [128, 128, 64] ∧
      SizedByHistory WordSet.table WordSet.Operation.perform WordSet.Operation.effect
        (Footprint.along WordSet.table WordSet.Operation.perform WordSet.Operation.effect wordSetOps
          wordSet (.ofConfig sparse))
        (finalState WordSet.Operation.perform wordSetOps wordSet)) ∧
    (MemberSet.ofConfig sparse ⟨.constant 7⟩ = .ok keySet ∧
      NoOverflow (trace MemberSet.Operation.perform keySetOps keySet) ∧
      ((trace MemberSet.Operation.perform keySetOps keySet).map fun c => c.state.capacity) =
        [128, 128, 64] ∧
      SizedByHistory MemberSet.table MemberSet.Operation.perform MemberSet.Operation.effect
        (Footprint.along MemberSet.table MemberSet.Operation.perform MemberSet.Operation.effect keySetOps
          keySet (.ofConfig sparse))
        (finalState MemberSet.Operation.perform keySetOps keySet)) := by
  intro sparse wordOps wordKeyOps pairOps tallyOps wordSetOps keySetOps words wordKeys pairs tally wordSet
    keySet
  have hsizing : Sizing.ofConfig sparse = .ok (.ofCapacity 8 sparse.loadFactor) := by decide +kernel
  have hwords : WordMap.ofConfig sparse (-1) = .ok words := by
    rw [WordMap.ofConfig, hsizing]; rfl
  have hwordKeys : ValueMap.ofConfig sparse .nullable {} = .ok wordKeys := by
    rw [ValueMap.ofConfig, hsizing]; rfl
  have hpairs : PairMap.ofConfig sparse = .ok pairs := by
    rw [PairMap.ofConfig, ValueMap.ofConfig, hsizing]; rfl
  have htally : Tally.ofConfig sparse 0 = .ok tally := by
    rw [Tally.ofConfig, WordMap.ofConfig, hsizing]; rfl
  have hwordSet : WordSet.ofConfig sparse = .ok wordSet := by
    rw [WordSet.ofConfig, MemberSet.ofConfig, hsizing]; rfl
  have hkeySet : MemberSet.ofConfig sparse ⟨.constant 7⟩ = .ok keySet := by
    rw [MemberSet.ofConfig, hsizing]; rfl
  have hwordOps : NoOverflow (trace WordMap.Operation.perform wordOps words) := by decide +kernel
  have hwordKeyOps : NoOverflow (trace ValueMap.Operation.perform wordKeyOps wordKeys) := by
    decide +kernel
  have hpairOps : NoOverflow (trace PairMap.Operation.perform pairOps pairs) := by decide +kernel
  have htallyOps : NoOverflow (trace Tally.Operation.perform tallyOps tally) := by decide +kernel
  have hwordSetOps : NoOverflow (trace WordSet.Operation.perform wordSetOps wordSet) := by
    decide +kernel
  have hkeySetOps : NoOverflow (trace MemberSet.Operation.perform keySetOps keySet) := by
    decide +kernel
  exact ⟨⟨hwords, hwordOps, by decide +kernel, capacity_of_run.1 hwords wordOps hwordOps⟩,
    ⟨hwordKeys, hwordKeyOps, by decide +kernel,
      capacity_of_run.2.1 hwordKeys wordKeyOps hwordKeyOps⟩,
    ⟨hpairs, hpairOps, by decide +kernel, capacity_of_run.2.2.1 hpairs pairOps hpairOps⟩,
    ⟨htally, htallyOps, by decide +kernel, capacity_of_run.2.2.2.1 htally tallyOps htallyOps⟩,
    ⟨hwordSet, hwordSetOps, by decide +kernel,
      capacity_of_run.2.2.2.2.1 hwordSet wordSetOps hwordSetOps⟩,
    ⟨hkeySet, hkeySetOps, by decide +kernel,
      capacity_of_run.2.2.2.2.2 hkeySet keySetOps hkeySetOps⟩⟩

end LinearProbing
