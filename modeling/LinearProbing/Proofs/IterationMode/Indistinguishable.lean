import LinearProbing.Container
import LinearProbing.Hash.Polynomial
import LinearProbing.Proofs.IterationMode.Maps
import LinearProbing.Proofs.IterationMode.Sets
import LinearProbing.Proofs.Sizing

/-!
# LinearProbing.Proofs.IterationMode.Indistinguishable

**Containers that were built alike but for the iteration mode cannot be told apart.** Whatever is done to both,
with cursors that are abandoned or not, all calls give the same results, and the tables have the same slots.
The mode alone can be read (`ignoresMode`).

A copy of a container cannot be told from it, either. So the copies that are made in a run, and given to an
operation of it, may be of one mode in one run and of the other mode in another.
-/

namespace LinearProbing

open TableContainer (len sizing mode copy hashCode toText detailedText)

/-- All that can be read of two containers is the same, but for the mode. -/
structure SameReadings {μ σ : Type} [TableContainer μ] (bare : μ → μ) (table : μ → Table σ) (m m' : μ) :
    Prop where
  slots : (table m).slots = (table m').slots
  iter : (table m).iter = (table m').iter
  len : len m = len m'
  sizing : sizing m = sizing m'
  hashCode : hashCode m = hashCode m'
  texts : toText m = toText m' ∧ detailedText m = detailedText m'
  beq : ∀ {other other'}, bare other = bare other' → (m == other) = (m' == other')

/-- Containers do not show their iteration mode, which is chosen when they are built. -/
structure IgnoresMode {μ σ ω γ α : Type} [TableContainer μ] (build : IterationMode → Except TableError μ)
    (perform : ω → μ → Call μ γ α) (bare : μ → μ) (bareOperation : ω → ω) (table : μ → Table σ) :
    Prop where
  built : ∀ {chosen m}, build chosen = .ok m →
    ∀ other, ∃ m', build other = .ok m' ∧ mode m' = other ∧ bare m = bare m'
  refused : ∀ {chosen error}, build chosen = .error error → ∀ other, build other = .error error
  copied : ∀ m, bare (copy m) = bare m
  read : ∀ {m m'}, bare m = bare m' → SameReadings bare table m m'
  /-- Runs give the same results at every step. Operations that are given other containers may be given ones
  of different modes. -/
  run : ∀ {m m'}, bare m = bare m' → ∀ {ops ops'}, ops.map bareOperation = ops'.map bareOperation →
    List.Forall₂ (Call.Alike bare) (trace perform ops m) (trace perform ops' m')

/-- All that is read of a container is read of it without its mode. -/
structure ReadsBare {μ σ : Type} [TableContainer μ] (bare : μ → μ) (table : μ → Table σ) : Prop where
  table : ∀ m, table (bare m) = (table m).bare
  copy : ∀ m, bare (copy m) = bare m
  len : ∀ m, len (bare m) = len m
  sizing : ∀ m, sizing (bare m) = sizing m
  hashCode : ∀ m, hashCode (bare m) = hashCode m
  toText : ∀ m, toText (bare m) = toText m
  detailedText : ∀ m, detailedText (bare m) = detailedText m
  beq : ∀ m other, (bare m == bare other) = (m == other)

section

variable {μ σ ω γ α : Type} [TableContainer μ] {bare : μ → μ} {table : μ → Table σ}

theorem ReadsBare.sameReadings (h : ReadsBare bare table) {m m' : μ} (hm : bare m = bare m') :
    SameReadings bare table m m' := by
  have htables : (table m).bare = (table m').bare := by rw [← h.table, hm, h.table]
  obtain ⟨-, hslots, hlen⟩ := Table.bare_eq_iff.mp htables
  exact
    { slots := hslots
      iter := by rw [Table.iter, Table.iter, hslots, hlen]
      len := by rw [← h.len, hm, h.len]
      sizing := by rw [← h.sizing, hm, h.sizing]
      hashCode := by rw [← h.hashCode, hm, h.hashCode]
      texts := ⟨by rw [← h.toText, hm, h.toText], by rw [← h.detailedText, hm, h.detailedText]⟩
      beq := fun hother => by rw [← h.beq, hm, hother, h.beq] }

/-- The mode is one of the things that a container is made from. -/
theorem ReadsBare.ignoresMode (h : ReadsBare bare table) {perform : ω → μ → Call μ γ α}
    {bareOperation : ω → ω}
    (hcommutes : ∀ op m, (perform (bareOperation op) (bare m)).within bare = (perform op m).within bare)
    (sizing? : Except TableError Sizing) (make : Sizing → IterationMode → μ)
    (hmode : ∀ s chosen, mode (make s chosen) = chosen)
    (hmake : ∀ s chosen other, bare (make s chosen) = bare (make s other))
    {build : IterationMode → Except TableError μ} (hbuild : ∀ chosen, build chosen = sizing?.map (make · chosen)) :
    IgnoresMode build perform bare bareOperation table where
  built {chosen m} hbuilt other := by
    rw [hbuild] at hbuilt
    obtain ⟨s, hs, rfl⟩ := exists_of_map_eq_ok hbuilt
    exact ⟨make s other, by rw [hbuild, hs]; rfl, hmode s other, hmake s chosen other⟩
  refused {chosen error} hrefused other := by
    rw [hbuild] at hrefused ⊢
    cases sizing? with
    | error => exact hrefused
    | ok => cases hrefused
  copied := h.copy
  read := h.sameReadings
  run hm _ _ hops := forall₂_alike hcommutes hops hm

end

/-- **The iteration mode of a container does not show.** -/
theorem ignoresMode_of_config [Digest] :
    (∀ {κ ν : Type} [SignedWord κ] [SignedWord ν] [ContentHash κ] [ContentHash ν] (config : TableConfig)
      (missing : ν), IgnoresMode (fun mode => WordMap.ofConfig (κ := κ) { config with mode } missing)
        WordMap.Operation.perform WordMap.bare WordMap.Operation.bare WordMap.table) ∧
    (∀ {σ η κ ν : Type} [EntrySlot σ κ ν] [KeyHash η κ] [BEq κ] [BEq ν] [ContentHash κ] [ContentHash ν]
      [Render κ] [Render ν] (config : TableConfig) (policy : NullPolicy) (hashing : η),
      IgnoresMode (fun mode => ValueMap.ofConfig (σ := σ) { config with mode } policy hashing)
        ValueMap.Operation.perform ValueMap.bare ValueMap.Operation.bare ValueMap.table) ∧
    (∀ {ν : Type} [BEq ν] [ContentHash ν] [Render ν] (config : TableConfig),
      IgnoresMode (fun mode => PairMap.ofConfig (ν := ν) { config with mode }) PairMap.Operation.perform
        PairMap.bare id fun m => m.inner.table) ∧
    (∀ {κ ν : Type} [SignedWord κ] [SignedWord ν] [ContentHash κ] [ContentHash ν] (config : TableConfig)
      (initial : ν), IgnoresMode (fun mode => Tally.ofConfig (κ := κ) { config with mode } initial)
        Tally.Operation.perform Tally.bare id fun t => t.counts.table) ∧
    (∀ {α : Type} [SignedWord α] [ContentHash α] (config : TableConfig),
      IgnoresMode (fun mode => WordSet.ofConfig (α := α) { config with mode }) WordSet.Operation.perform
        WordSet.bare WordSet.Operation.bare fun s => s.inner.table) ∧
    ∀ {η α : Type} [Hasher η α] [BEq α] [ContentHash α] [Render α] (config : TableConfig)
      (hashing : Mixed η), IgnoresMode
        (fun mode => (MemberSet.ofConfig { config with mode } hashing : Except _ (KeySet η α)))
        MemberSet.Operation.perform MemberSet.bare MemberSet.Operation.bare MemberSet.table := by
  refine ⟨?_, ?_, ?_, ?_, ?_, ?_⟩
  · intro κ ν _ _ _ _ config missing
    have hreads : ReadsBare (WordMap.bare (κ := κ) (ν := ν)) WordMap.table :=
      ⟨fun _ => rfl, fun _ => rfl, fun _ => rfl, fun _ => rfl, fun _ => rfl, fun _ => rfl, fun _ => rfl,
        fun _ _ => rfl⟩
    exact hreads.ignoresMode WordMap.Operation.perform_bare (Sizing.ofConfig config)
      (fun s mode => .ofSizing s mode missing) (fun _ _ => rfl) (fun _ _ _ => rfl) fun _ => rfl
  · intro σ η κ ν _ _ _ _ _ _ _ _ config policy hashing
    have hreads : ReadsBare (ValueMap.bare (σ := σ) (η := η) (κ := κ) (ν := ν)) ValueMap.table :=
      ⟨fun _ => rfl, fun _ => rfl, fun _ => rfl, fun _ => rfl, fun _ => rfl, fun _ => rfl, fun _ => rfl,
        fun _ _ => rfl⟩
    exact hreads.ignoresMode ValueMap.Operation.perform_bare (Sizing.ofConfig config)
      (fun s mode => .ofSizing s mode policy hashing) (fun _ _ => rfl) (fun _ _ _ => rfl) fun _ => rfl
  · intro ν _ _ _ config
    have hreads : ReadsBare (PairMap.bare (ν := ν)) fun m => m.inner.table :=
      ⟨fun _ => rfl, fun _ => rfl, fun _ => rfl, fun _ => rfl, fun _ => rfl, fun _ => rfl, fun _ => rfl,
        fun _ _ => rfl⟩
    have hcommutes : ∀ (op : PairMap.Operation ν) m,
        (op.perform (PairMap.bare m)).within PairMap.bare = (op.perform m).within PairMap.bare := by
      intro op m
      rw [op.perform_bare]
      rfl
    refine hreads.ignoresMode hcommutes (Sizing.ofConfig config)
      (fun s mode => ⟨.ofSizing s mode .nonNull {}⟩) (fun _ _ => rfl) (fun _ _ _ => rfl) fun mode => ?_
    change ((Sizing.ofConfig config).map (ValueMap.ofSizing · mode .nonNull {})).map PairMap.mk = _
    cases Sizing.ofConfig config <;> rfl
  · intro κ ν _ _ _ _ config initial
    have hreads : ReadsBare (Tally.bare (κ := κ) (ν := ν)) fun t => t.counts.table :=
      ⟨fun _ => rfl, fun _ => rfl, fun _ => rfl, fun _ => rfl, fun _ => rfl, fun _ => rfl, fun _ => rfl,
        fun _ _ => rfl⟩
    have hcommutes : ∀ (op : Tally.Operation κ ν) t,
        (op.perform (Tally.bare t)).within Tally.bare = (op.perform t).within Tally.bare := by
      intro op t
      rw [op.perform_bare]
      rfl
    refine hreads.ignoresMode hcommutes (Sizing.ofConfig config)
      (fun s mode => ⟨.ofSizing s mode initial⟩) (fun _ _ => rfl) (fun _ _ _ => rfl) fun mode => ?_
    change ((Sizing.ofConfig config).map (WordMap.ofSizing · mode initial)).map Tally.mk = _
    cases Sizing.ofConfig config <;> rfl
  · intro α _ _ config
    have hreads : ReadsBare (WordSet.bare (α := α)) fun s => s.inner.table :=
      ⟨fun _ => rfl, fun _ => rfl, fun _ => rfl, fun _ => rfl, fun _ => rfl, fun _ => rfl, fun _ => rfl,
        fun _ _ => rfl⟩
    refine hreads.ignoresMode WordSet.Operation.perform_bare (Sizing.ofConfig config)
      (fun s mode => ⟨.ofSizing s mode {}, false⟩) (fun _ _ => rfl) (fun _ _ _ => rfl) fun mode => ?_
    change ((Sizing.ofConfig config).map (MemberSet.ofSizing · mode {})).map (WordSet.mk · false) = _
    cases Sizing.ofConfig config <;> rfl
  · intro η α _ _ _ _ config hashing
    have hreads : ReadsBare (MemberSet.bare (σ := Option (HashedMember α)) (η := Mixed η) (α := α)) MemberSet.table :=
      ⟨fun _ => rfl, fun _ => rfl, fun _ => rfl, fun _ => rfl, fun _ => rfl, fun _ => rfl, fun _ => rfl,
        fun _ _ => rfl⟩
    exact hreads.ignoresMode MemberSet.Operation.perform_bare (Sizing.ofConfig config)
      (fun s mode => .ofSizing s mode hashing) (fun _ _ => rfl) (fun _ _ _ => rfl) fun _ => rfl

/-- A run in both modes, with a cursor that is abandoned at an entry. The entry is removed, the map grows,
another cursor is opened, and the map is compacted and cleared. -/
theorem ignoresMode_of_config_abandoned :
    let cached : WordMap Int32 Int32 := .ofSizing .standard .cached (-1)
    let fresh : WordMap Int32 Int32 := .ofSizing .standard .fresh (-1)
    let abandon : List (WordMap.Operation Int32 Int32) :=
      [.insert 1 10, .insert 9 90, .insert 17 170, .cursor [.next, .next]]
    let ops := abandon ++ [.erase 1, .insert 4 40, .insert 5 50, .insert 6 60, .insert 7 70,
      .cursor [.remove, .next, .remove, .next, .write 5], .compact, .clear, .insert 2 20]
    WordMap.ofConfig {} (-1) = .ok cached ∧ WordMap.ofConfig { mode := .fresh } (-1) = .ok fresh ∧
      (finalState WordMap.Operation.perform abandon cached).table.scan.current = some 6 ∧
      (finalState WordMap.Operation.perform abandon fresh).table.scan.current = none ∧
      List.Forall₂ (Call.Alike WordMap.bare) (trace WordMap.Operation.perform ops cached)
        (trace WordMap.Operation.perform ops fresh) := by
  intro cached fresh abandon ops
  have hcached : WordMap.ofConfig {} (-1) = .ok cached :=
    congrArg (Except.map (WordMap.ofSizing · .cached (-1))) Sizing.ofConfig_default
  obtain ⟨m, hm, -, halike⟩ := (ignoresMode_of_config.1 {} (-1 : Int32)).built hcached .fresh
  have hfresh : WordMap.ofConfig { mode := .fresh } (-1) = .ok fresh :=
    congrArg (Except.map (WordMap.ofSizing · .fresh (-1))) Sizing.ofConfig_default
  obtain rfl : m = fresh := Except.ok.inj (hm.symm.trans hfresh)
  exact ⟨hcached, hfresh, by decide +kernel, by decide +kernel,
    (ignoresMode_of_config.1 {} (-1)).run halike rfl⟩

end LinearProbing
