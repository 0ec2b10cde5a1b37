import LinearProbing.Proofs.Invariant
import LinearProbing.Proofs.Tracks

/-!
# LinearProbing.Proofs.Probing

**What all containers over a probing table have in common.** `Probing` collects what was proved of the
operations of a container, and what its table is. From this alone follows what holds of every run:

* `Probing.invariant` — the table invariant, as long as no insertion fails to grow the table;
* `Probing.outcome` — what a call does to a table, also when insertions have failed before.
-/

namespace LinearProbing

/-- A container whose operations work on one table and do what is specified of them. `R` relates a
container to what it stands for, `broken` says what an insertion that could not grow the table has left;
either depends on whether such insertions are ruled out so far (`within`). -/
structure Probing {τ υ ω γ α σ κ ν : Type} [BEq κ] (E : EntryLayout σ κ ν) (hash : κ → UInt64)
    (table : τ → Table σ) (perform : ω → τ → Call τ γ α) (allows : ω → υ → Call υ γ α → Prop)
    (R : Prop → τ → υ → Prop) (broken : Prop → τ → Prop) : Prop where
  /-- Every operation does what is specified of it. -/
  step : ∀ {within : Prop} (op : ω) {s : τ} {m : υ}, R within s m →
    ∃ d, allows op m d ∧ (perform op s).Tracks (R within) (broken within) d
  /-- The table of a container is usable. -/
  usable : ∀ {within : Prop} {s : τ} {m : υ}, R within s m → (table s).Usable E hash within
  /-- The bound on the number of entries may be taken up or dropped. -/
  of_usable : ∀ {within within' : Prop} {s : τ} {m : υ}, R within s m →
    (table s).Usable E hash within' → R within' s m
  /-- An insertion that could not grow the table has left too many entries. -/
  overfull : ∀ {within : Prop} {s : τ}, broken within s → (table s).Overfull E hash within
  /-- While some slot is vacant, the container goes on without the bound. -/
  of_overfull : ∀ {within : Prop} {s : τ}, broken within s →
    (table s).len < (table s).slots.size → ∃ m, R False s m

namespace Table

variable {σ κ ν : Type} [BEq κ] {E : EntryLayout σ κ ν} {hash : κ → UInt64}
variable {storable : κ → ν → Prop} {within : Prop} {t : Table σ}

/-- In a full table, the search for an absent key never ends. -/
theorem WellFormed.locate_eq_endless (h : t.WellFormed E hash) (hfull : t.len = t.slots.size) {key : κ}
    (habsent : ∀ e ∈ t.entries E, (e.1 == key) = false) :
    t.locate E (hash key) key = .endless := by
  have hocc : ∀ i < t.slots.size, E.layout.vacantAt t.slots i = false := by
    -- as many entries as slots: every slot holds one
    have hall : ∀ s ∈ t.slots.toList, (E.entryIn? s).isSome = true := by
      refine List.countP_eq_length.mp ?_
      rw [← List.length_filterMap_eq_countP]
      exact h.len_eq.symm.trans (hfull.trans Array.length_toList.symm)
    intro i hi
    have := hall _ (Array.getElem_mem_toList hi)
    rw [← Layout.slotAt_eq_getElem hi] at this
    exact EntryLayout.vacantAt_eq_false_iff.mpr (Option.isSome_iff_exists.mp this)
  -- each slot is passed, being neither vacant nor of an equal key
  refine Layout.probeFrom_eq_endless hocc (fun i hi => ?_) _ (homeSlot_lt h.size_pos)
  obtain ⟨e, he⟩ := EntryLayout.vacantAt_eq_false_iff.mp (hocc i hi)
  have hkey := habsent e (EntryLayout.mem_entries_iff.mpr ⟨i, hi, he⟩)
  have hentry : E.entryIn? (E.layout.slotAt t.slots i) = some (e.1, e.2) := he
  rw [EntryLayout.holds, hentry]
  dsimp only
  rw [hkey, Bool.and_false]

/-- What a call does to a table `t`, on which insertions may have failed before: the call leaves `u` and
ends with `result`. -/
structure GrowthOutcome {α : Type} (E : EntryLayout σ κ ν) (hash : κ → UInt64) (t u : Table σ)
    (result : Except Failure α) : Prop where
  /-- All of the invariant is kept but for the bound on the number of entries. -/
  consistent : u.Consistent E hash
  /-- The search for a slot has ended. -/
  ends : result ≠ .error .endlessSearch
  /-- The invariant is kept exactly when the table did not fail to grow. -/
  invariant_iff : t.Invariant E hash →
    (u.Invariant E hash ↔ result ≠ .error .capacityOverflow)
  /-- It fails to grow when there are too many entries for every capacity. -/
  exceeds : result = .error .capacityOverflow →
    ∀ capacity, IsCapacity capacity → threshold capacity u.sizing.loadFactor < u.len
  /-- The first entry that is too many is left in the table. -/
  len_eq_succ : t.Invariant E hash → result = .error .capacityOverflow →
    u.len = u.sizing.threshold + 1
  /-- While some slot is vacant, every search ends. -/
  locate_ne_endless : u.len < u.capacity → ∀ key, u.locate E (hash key) key ≠ .endless
  /-- When none is, the search for an absent key never ends. -/
  locate_eq_endless : u.len = u.capacity → ∀ key, (∀ e ∈ u.entries E, (e.1 == key) = false) →
    u.locate E (hash key) key = .endless

/-- What a compaction does to a table `t` of a container, on which insertions may have failed before: it
leaves `u` and ends with `result`. -/
structure CompactionOutcome {α : Type} (t u : Table σ) (result : Except Failure α) : Prop where
  ends : (∃ value, result = .ok value) ∨ result = .error .capacityOverflow
  /-- It fails exactly when the entries fit under no power of two in the range of sizes: the search for a
  capacity then leaves that range. -/
  fails_iff : result = .error .capacityOverflow ↔
    ∀ k, 2 ^ k < sizeLimit → threshold (2 ^ k) t.sizing.loadFactor < t.len
  /-- If there are too many entries for every capacity, the table is left as it is, whether the compaction
  fails or not. -/
  unchanged : (∀ capacity, IsCapacity capacity → threshold capacity t.sizing.loadFactor < t.len) → u = t

omit [BEq κ] in
theorem compactionOutcome (h : t.sizing.Valid) {α : Type} (f : Unit → α) :
    t.CompactionOutcome (t.compact E).state ((t.compact E).result.map f) := by
  have hnone := Sizing.compactedFor?_eq_none_iff h.loadFactor t.len
  have hcompaction := t.compaction E
  generalize t.compact E = c at hcompaction ⊢
  cases hcompaction with
  | moves found smaller =>
      refine ⟨.inl ⟨_, rfl⟩, ⟨nofun, fun hfull => ?_⟩, fun hfull => ?_⟩
      · exact absurd (hnone.mpr hfull) (by rw [found]; exact nofun)
      · -- a smaller table would hold the entries, although they are too many for every one
        obtain ⟨hload, hlen, hvalid⟩ := h.of_compactedFor? found
        rw [(hvalid smaller).threshold, hload] at hlen
        exact absurd hlen (Nat.not_le_of_lt (hfull _ (hvalid smaller).capacity))
  | stays found _ =>
      refine ⟨.inl ⟨_, rfl⟩, ⟨nofun, fun hfull => ?_⟩, fun _ => rfl⟩
      exact absurd (hnone.mpr hfull) (by rw [found]; exact nofun)
  | fails found => exact ⟨.inr rfl, ⟨fun _ => hnone.mp found, fun _ => rfl⟩, fun _ => rfl⟩

theorem WellFormed.locate_ne_endless (h : t.WellFormed E hash) (hE : E.Lawful hash storable)
    (hlt : t.len < t.slots.size) (key : κ) : t.locate E (hash key) key ≠ .endless := by
  have hlocated := h.located hE hlt key
  intro hendless
  rw [hendless] at hlocated
  cases hlocated

end Table

/-! ### Runs -/

/-- The states that are reached from `s`. -/
inductive Reaches {τ ω γ α σ : Type} (table : τ → Table σ) (perform : ω → τ → Call τ γ α) (s : τ) :
    τ → Prop
  /-- By any run in which no insertion fails to grow the table. -/
  | run {ops : List ω} (noOverflow : NoOverflow (trace perform ops s)) :
      Reaches table perform s (finalState perform ops s)
  /-- By further calls, whose failures are caught, as long as some slot is vacant. -/
  | caught {reached : τ} {op : ω} (before : Reaches table perform s reached)
      (vacant : (table (perform op reached).state).len < (table (perform op reached).state).slots.size) :
      Reaches table perform s (perform op reached).state

theorem reaches_self {τ ω γ α σ : Type} (table : τ → Table σ) (perform : ω → τ → Call τ γ α) (s : τ) :
    Reaches table perform s s :=
  @Reaches.run _ _ _ _ _ table perform s [] (List.forall_mem_nil _)

/-- What holds of a new container, and after every call that does not fail to grow the table or leaves some
slot vacant, holds of all that is reached. -/
theorem Reaches.induction {τ ω γ α σ : Type} {table : τ → Table σ} {perform : ω → τ → Call τ γ α}
    {s reached : τ} {P : τ → Prop} (h : Reaches table perform s reached) (hs : P s)
    (hserved : ∀ op s, P s → (perform op s).result ≠ .error .capacityOverflow → P (perform op s).state)
    (hcaught : ∀ op s, P s →
      (table (perform op s).state).len < (table (perform op s).state).slots.size → P (perform op s).state) :
    P reached := by
  induction h with
  | @run ops hno =>
      clear hcaught
      induction ops generalizing s with
      | nil => exact hs
      | cons op rest ih =>
          obtain ⟨hfirst, hrest⟩ := List.forall_mem_cons.mp hno
          exact ih (hserved op s hs hfirst) hrest
  | @caught before op _ vacant ih => exact hcaught op before ih vacant

/-- By further calls, each of which leaves some slot vacant. -/
theorem Reaches.calls {τ ω γ α σ : Type} {table : τ → Table σ} {perform : ω → τ → Call τ γ α}
    {s reached : τ} {ops : List ω} (h : Reaches table perform s reached)
    (hvacant : ∀ c ∈ trace perform ops reached, (table c.state).len < (table c.state).slots.size) :
    Reaches table perform s (finalState perform ops reached) := by
  induction ops generalizing reached with
  | nil => exact h
  | cons op rest ih =>
      have hnext : Reaches table perform s (perform op reached).state :=
        h.caught (hvacant _ List.mem_cons_self)
      exact ih hnext fun c hc => hvacant c (List.mem_cons_of_mem _ hc)

namespace Probing

variable {τ υ ω γ α σ κ ν : Type} [BEq κ] [EquivBEq κ] {E : EntryLayout σ κ ν} {hash : κ → UInt64}
variable {storable : κ → ν → Prop} {table : τ → Table σ} {perform : ω → τ → Call τ γ α}
variable {allows : ω → υ → Call υ γ α → Prop} {R : Prop → τ → υ → Prop} {broken : Prop → τ → Prop}
variable {s : τ} {m : υ}

/-- **The table invariant holds after every run** in which no insertion fails to grow the table. -/
theorem invariant (h : Probing E hash table perform allows R broken) (hE : E.Lawful hash storable)
    (hR : R True s m) {ops : List ω} (hno : NoOverflow (trace perform ops s)) :
    (table (finalState perform ops s)).Invariant E hash := by
  obtain ⟨-, m', hfinal⟩ := exists_runs (fun op _ _ => h.step op) ops hR hno
  exact (h.usable hfinal).sound.invariant hE

/-- **What a call does to a table**, also when insertions have failed before. -/
theorem outcome (h : Probing E hash table perform allows R broken) (hE : E.Lawful hash storable)
    (hR : R False s m) (op : ω) :
    Table.GrowthOutcome E hash (table s) (table (perform op s).state) (perform op s).result := by
  have hstrict : (table s).Invariant E hash → R True s m := fun hinvariant =>
    h.of_usable hR ⟨(h.usable hR).toWellFormed, (h.usable hR).len_lt, fun _ => hinvariant.len_le⟩
  -- whether the call succeeds or overflows, its table is well-formed
  have hwell : (table (perform op s).state).WellFormed E hash := by
    obtain ⟨d, -, hagrees | ⟨-, hbroken⟩⟩ := h.step op hR
    · exact (h.usable hagrees.state).toWellFormed
    · exact (h.overfull hbroken).toWellFormed
  have hoverfull : ∀ {within : Prop} {m : υ}, R within s m →
      (perform op s).result = .error .capacityOverflow →
        (table (perform op s).state).Overfull E hash within := by
    intro within m hR hresult
    obtain ⟨d, -, hagrees | ⟨-, hbroken⟩⟩ := h.step op hR
    · exact absurd rfl (hagrees.ends _ hresult).1
    · exact h.overfull hbroken
  exact
    { consistent := hwell.consistent hE
      ends := by
        intro hresult
        obtain ⟨d, -, hagrees | ⟨hoverflow, -⟩⟩ := h.step op hR
        · exact absurd rfl (hagrees.ends _ hresult).2
        · exact absurd (hresult.symm.trans hoverflow) (by simp)
      invariant_iff := by
        intro hinvariant
        constructor
        · intro hafter hresult
          have := (hoverfull hR hresult).threshold_lt
          exact absurd hafter.len_le (Nat.not_le_of_lt this)
        · intro hresult
          -- with the bound in force, a call that does not overflow keeps it
          obtain ⟨d, -, hagrees | ⟨hoverflow, -⟩⟩ := h.step op (hstrict hinvariant)
          · exact (h.usable hagrees.state).sound.invariant hE
          · exact absurd hoverflow hresult
      exceeds := by
        intro hresult capacity hcapacity
        have hfull := hoverfull hR hresult
        exact hwell.sizing.threshold_lt_of_grownFor?_eq_none hfull.threshold_lt
          hfull.grownFor?_eq_none hcapacity
      len_eq_succ := by
        intro hinvariant hresult
        exact (hoverfull (hstrict hinvariant) hresult).len_eq_succ trivial
      locate_ne_endless := by
        intro hlt key
        exact hwell.locate_ne_endless hE (hlt.trans_eq hwell.size_eq.symm) key
      locate_eq_endless := by
        intro hfull key habsent
        exact hwell.locate_eq_endless (hfull.trans hwell.size_eq.symm) habsent }

omit [EquivBEq κ] in
/-- Every state that is reached stands for something. -/
theorem exists_of_reaches (h : Probing E hash table perform allows R broken) (hR : R True s m)
    {reached : τ} (hreached : Reaches table perform s reached) :
    ∃ m', R False reached m' := by
  induction hreached with
  | run hno =>
      obtain ⟨-, m', hrun⟩ := exists_runs (fun op _ _ => h.step op) _ hR hno
      have husable := h.usable hrun
      exact ⟨m', h.of_usable hrun ⟨husable.toWellFormed, husable.len_lt, False.elim⟩⟩
  -- the bound may be lost here, but a vacant slot is all that searches need
  | @caught reached op _ hvacant ih =>
      obtain ⟨m', hbefore⟩ := ih
      obtain ⟨d, -, hagrees | ⟨-, hbroken⟩⟩ := h.step op hbefore
      · exact ⟨_, hagrees.state⟩
      · exact h.of_overfull hbroken hvacant

end Probing

end LinearProbing
