import LinearProbing.Proofs.RecencyCache.Refinement

/-!
# LinearProbing.Proofs.RecencyCache.History

**What a cache of recently used values holds is decided by the history of its lookups.** Its keys are the
latest ones of the history, without repetitions, as many as it has room for (`recentKeys`). So a larger cache
that serves the same lookups holds all that a smaller one holds, and calls its factory less often.
-/

namespace LinearProbing

/-! ### Lists without repetitions -/

section Repetitions

variable {α : Type} [DecidableEq α]

theorem nodup_eraseDups (l : List α) : l.eraseDups.Nodup := by
  cases l with
  | nil => exact List.nodup_nil
  | cons x rest =>
      rw [List.eraseDups_cons, List.nodup_cons, List.mem_eraseDups, List.mem_filter]
      exact ⟨by simp, nodup_eraseDups (rest.filter fun y => !y == x)⟩
termination_by l.length
decreasing_by exact Nat.lt_succ_of_le (List.length_filter_le _ _)

theorem filter_eraseDups (p : α → Bool) (l : List α) : l.eraseDups.filter p = (l.filter p).eraseDups := by
  -- `eraseDups` goes on with the elements that differ from the first one, so the two filters are swapped
  cases l with
  | nil => rfl
  | cons x rest =>
      have hrest := filter_eraseDups p (rest.filter fun y => !y == x)
      rw [List.eraseDups_cons]
      by_cases hx : p x
      · rw [List.filter_cons_of_pos hx, List.filter_cons_of_pos hx, List.eraseDups_cons, hrest,
          List.filter_comm]
      · have hother : ∀ y ∈ rest, (p y && !y == x) = p y := by
          intro y _
          by_cases heq : y = x
          · simp [heq, hx]
          · simp [heq]
        rw [List.filter_cons_of_neg hx, List.filter_cons_of_neg hx, hrest, List.filter_filter,
          List.filter_congr hother]
termination_by l.length
decreasing_by exact Nat.lt_succ_of_le (List.length_filter_le _ _)

/-- To leave out one member, it is enough to look at one more. -/
theorem take_filter_ne {l : List α} (hnodup : l.Nodup) (x : α) (n : Nat) :
    ((l.take (n + 1)).filter (· ≠ x)).take n = (l.filter (· ≠ x)).take n := by
  induction l generalizing n with
  | nil => rfl
  | cons y rest ih =>
      obtain ⟨hy, hrest⟩ := List.nodup_cons.mp hnodup
      rw [List.take_succ_cons]
      by_cases heq : y = x
      · subst heq
        -- the key occurs nowhere else, so the filter removes this one element and the rest moves up
        have hothers : rest.filter (· ≠ y) = rest :=
          List.filter_eq_self.mpr fun z hz => decide_eq_true fun heq => hy (heq ▸ hz)
        have htaken : (rest.take n).filter (· ≠ y) = rest.take n :=
          List.filter_eq_self.mpr fun z hz => decide_eq_true fun heq => hy (heq ▸ List.mem_of_mem_take hz)
        rw [List.filter_cons_of_neg (by simp), List.filter_cons_of_neg (by simp), htaken, hothers,
          List.take_take, Nat.min_self]
      · rw [List.filter_cons_of_pos (by simpa using heq), List.filter_cons_of_pos (by simpa using heq)]
        cases n with
        | zero => rfl
        | succ n => rw [List.take_succ_cons, List.take_succ_cons, ih hrest]

/-- The first `capacity` distinct keys that are met when a history is read backwards. -/
def recentKeys (capacity : Nat) (history : List α) : List α := history.reverse.eraseDups.take capacity

/-- **A key that is used comes first**, and the others follow as far as there is room. -/
theorem recentKeys_append_singleton {capacity : Nat} (hcapacity : 0 < capacity) (history : List α)
    (key : α) :
    recentKeys capacity (history ++ [key]) =
      key :: ((recentKeys capacity history).filter (· ≠ key)).take (capacity - 1) := by
  obtain ⟨n, rfl⟩ := Nat.exists_eq_add_of_lt hcapacity
  rw [Nat.zero_add, recentKeys, recentKeys, List.reverse_append, List.reverse_singleton,
    List.singleton_append, List.eraseDups_cons, List.take_succ_cons, Nat.add_sub_cancel,
    take_filter_ne (nodup_eraseDups _), filter_eraseDups]
  simp only [decide_not]
  rfl

end Repetitions

/-! ### What is specified of a lookup -/

namespace RecencyList

variable {κ ν : Type} {m : RecencyList κ ν}

theorem keys_makeRoom (hpos : 0 < m.capacity) (hle : m.entries.length ≤ m.capacity) :
    m.makeRoom.state.keys = m.keys.take (m.capacity - 1) := by
  unfold makeRoom
  split
  · next hfull => rw [keys, keys, List.dropLast_eq_take, List.map_take, hfull]
  · next hroom =>
    have hlength : m.keys.length ≤ m.capacity - 1 := by
      rw [keys, List.length_map]
      omega
    rw [List.take_of_length_le hlength]

variable [DecidableEq κ]

/-- **A lookup puts its key first**, unless the factory fails. -/
theorem keys_lookup (hpos : 0 < m.capacity) (hle : m.entries.length ≤ m.capacity) {key : κ}
    {factory : κ → Reply ν} (hanswers : (m.lookup key factory).result ≠ .error .panicked) :
    (m.lookup key factory).state.keys =
      key :: (m.keys.filter (· ≠ key)).take (m.capacity - 1) := by
  unfold lookup at hanswers ⊢
  cases hget : m.get? key with
  | some value =>
      have hkeys : ((m.without key).push key value).keys = key :: m.keys.filter (· ≠ key) := by
        rw [keys, keys, List.filter_map]
        rfl
      -- the key is one of those that are there, so there is room for the others
      have hshorter : (m.keys.filter (· ≠ key)).length ≤ m.capacity - 1 := by
        obtain ⟨e, hfind, -⟩ := Option.map_eq_some_iff.mp hget
        have hmem : e.1 ∈ m.keys := List.mem_map_of_mem (List.mem_of_find?_eq_some hfind)
        have hkey : e.1 = key := by simpa using List.find?_some hfind
        have hless : (m.keys.filter (· ≠ key)).length < m.keys.length :=
          List.length_filter_lt_length_iff_exists.mpr ⟨e.1, hmem, by simp [hkey]⟩
        have hlength : m.keys.length = m.entries.length := List.length_map _
        omega
      rw [List.take_of_length_le hshorter]
      exact hkeys
  | none =>
      have hothers : m.keys.filter (· ≠ key) = m.keys := by
        rw [get?, Option.map_eq_none_iff, List.find?_eq_none] at hget
        refine List.filter_eq_self.mpr fun k hk => ?_
        obtain ⟨e, he, rfl⟩ := List.mem_map.mp hk
        simpa using hget e he
      rw [hothers, ← keys_makeRoom hpos hle]
      simp only [hget] at hanswers ⊢
      cases hreply : factory key with
      | panics =>
          rw [hreply] at hanswers
          exact absurd rfl hanswers
      | answers value => rfl

end RecencyList

/-! ### Runs -/

namespace RecencyCache

variable {κ ν θ : Type} {ρ : Type → Type}

/-- The key that an operation looks up. To ask whether a key is there is not to use it. -/
def Operation.lookedUp? : Operation κ ν → Option κ
  | lookup key _ => some key
  | contains _ | keys | len | close => none

/-- The keys that a run looks up, in order. -/
def lookedUp (ops : List (Operation κ ν)) : List κ := ops.filterMap Operation.lookedUp?

variable [SignedWord κ] [HandleStore ρ θ] [LawfulHandleStore ρ θ] {c : RecencyCache κ ν ρ θ}
variable {m : RecencyList κ ν}

theorem Represents.keys_eq (h : c.Represents m) : c.keys = m.keys := by
  obtain ⟨-, -, -, l, hholds, hentries⟩ := h
  rw [hholds.links.keys_eq, RecencyList.keys, hentries, List.map_map]
  rfl

/-- **The factory is called for the keys that are not there.** -/
theorem Represents.makes_iff (h : c.Represents m) (key : κ) (factory : κ → Reply ν) :
    .makes key ∈ ((Operation.lookup key factory).perform c).calls ↔ key ∉ c.keys := by
  obtain ⟨-, -, -, l, hholds, -⟩ := h
  rw [hholds.links.keys_eq]
  have hcalls : ((Operation.lookup key factory).perform c).calls =
      (c.lookup key factory).disposingFirst.calls := rfl
  rw [hcalls, DisposingCall.disposingFirst, RecencyCache.lookup]
  rcases hholds.indexes.get?_cases key with ⟨a, x, b, rfl, rfl, hget⟩ | ⟨habsent, hget⟩
  · simp [hget, Call.quiet]
  · have hmade : (Call.run key (factory key) c.makeRoom.state fun value =>
        (c.makeRoom.state.addNode key value).andThen touch).calls = [key] := by
      cases factory key <;> rfl
    simp only [hget, hmade]
    simpa using habsent

/-- A step of a run, as long as nothing is closed and no factory fails. -/
theorem Represents.perform_recentKeys (h : c.Represents m) {history : List κ}
    (hkeys : m.keys = recentKeys m.capacity history) {op : Operation κ ν} (hop : op ≠ .close)
    (hanswers : (op.perform c).result ≠ .error .panicked)
    (hgrows : (op.perform c).result ≠ .error .capacityOverflow) :
    ∃ m', (op.perform c).state.Represents m' ∧ m'.capacity = m.capacity ∧
      m'.keys = recentKeys m.capacity (history ++ op.lookedUp?.toList) := by
  obtain ⟨_, ⟨order, -, rfl⟩, hagrees | ⟨hoverflow, -⟩⟩ := h.perform op
  · refine ⟨_, hagrees.state, op.capacity_specify order m, ?_⟩
    -- only a lookup moves a key to the front; the other operations look no key up
    cases op with
    | contains | keys | len =>
        rw [Operation.lookedUp?, Option.toList_none, List.append_nil]
        exact hkeys
    | close => exact absurd rfl hop
    | lookup key factory =>
        have hanswers' : (m.lookup key factory).result ≠ .error .panicked := by
          intro hpanic
          have hresult : ((Operation.lookup key factory).specify order m).result = .error .panicked :=
            congrArg (Except.map CacheAnswer.value?) hpanic
          exact hanswers (hagrees.result.trans hresult)
        rw [Operation.lookedUp?, Option.toList_some, recentKeys_append_singleton h.capacity_pos, ← hkeys]
        exact RecencyList.keys_lookup h.capacity_pos h.len_le hanswers'
  · exact absurd hoverflow hgrows

/-- **The keys after a run.** -/
theorem Represents.finalState_recentKeys (ops : List (Operation κ ν)) (h : c.Represents m)
    {history : List κ} (hkeys : m.keys = recentKeys m.capacity history) (hops : .close ∉ ops)
    (hanswer : ∀ call ∈ trace Operation.perform ops c, call.result ≠ .error .panicked)
    (hno : NoOverflow (trace Operation.perform ops c)) :
    ∃ m', (finalState Operation.perform ops c).Represents m' ∧ m'.capacity = m.capacity ∧
      m'.keys = recentKeys m.capacity (history ++ lookedUp ops) := by
  induction ops generalizing c m history with
  | nil => exact ⟨m, h, rfl, by rwa [lookedUp, List.filterMap_nil, List.append_nil]⟩
  | cons op rest ih =>
      obtain ⟨hop, hrest⟩ := not_or.mp (mt List.mem_cons.mpr hops)
      obtain ⟨hanswers, hanswer'⟩ := List.forall_mem_cons.mp hanswer
      obtain ⟨hgrows, hno'⟩ := List.forall_mem_cons.mp hno
      obtain ⟨m', hreached, hcapacity, hkeys'⟩ := h.perform_recentKeys hkeys (Ne.symm hop) hanswers hgrows
      rw [← hcapacity] at hkeys' ⊢
      obtain ⟨m'', hfinal, hcapacity', hkeys''⟩ := ih hreached hkeys' hrest hanswer' hno'
      refine ⟨m'', hfinal, hcapacity', ?_⟩
      rw [hkeys'', List.append_assoc]
      cases op <;> rfl

/-- A cache that is new, or was closed at the end of a run. -/
inductive Emptied (new : RecencyCache κ ν ρ θ) : RecencyCache κ ν ρ θ → Prop where
  | made : Emptied new new
  | closed {before : List (Operation κ ν)} (hno : NoOverflow (trace Operation.perform before new)) :
      Emptied new (Operation.close.perform (finalState Operation.perform before new)).state

theorem Emptied.represents {new : RecencyCache κ ν ρ θ} {capacity : Nat} (h : Emptied new c)
    (hnew : ofCapacity capacity = .ok new) : c.Represents { capacity } := by
  have hrepresents := represents_of_ofCapacity hnew
  cases h with
  | made => exact hrepresents
  | @closed before hno =>
      obtain ⟨m, hreached, rfl, -⟩ := hrepresents.exists_built before hno
      obtain ⟨_, ⟨order, -, rfl⟩, hagrees | ⟨hoverflow, -⟩⟩ := hreached.perform .close
      · exact hagrees.state
      · cases hoverflow

/-- A run on a cache that is new or was closed. It does not close the cache, and no factory fails in it. -/
structure Serves (new c : RecencyCache κ ν ρ θ) (ops : List (Operation κ ν)) : Prop where
  emptied : Emptied new c
  notClosed : .close ∉ ops
  answers : ∀ call ∈ trace Operation.perform ops c, call.result ≠ .error .panicked

theorem Serves.exists_recentKeys {new : RecencyCache κ ν ρ θ} {ops : List (Operation κ ν)} {capacity : Nat}
    (h : Serves new c ops) (hnew : ofCapacity capacity = .ok new)
    (hno : NoOverflow (trace Operation.perform ops c)) :
    ∃ m, (finalState Operation.perform ops c).Represents m ∧
      m.keys = recentKeys capacity (lookedUp ops) := by
  have hstart : ({ capacity } : RecencyList κ ν).keys = recentKeys capacity [] := List.take_nil.symm
  obtain ⟨m, hreached, -, hkeys⟩ :=
    (h.emptied.represents hnew).finalState_recentKeys ops hstart h.notClosed h.answers hno
  exact ⟨m, hreached, hkeys⟩

/-- The history of a run decides which keys are there, and in which order. -/
structure KeepsRecentKeys (c : RecencyCache κ ν ρ θ) (ops : List (Operation κ ν)) : Prop where
  keys : NoOverflow (trace Operation.perform ops c) →
    (finalState Operation.perform ops c).keys = recentKeys c.capacity (lookedUp ops)
  /-- The index can grow for more than `2 ^ 61` calls. -/
  noOverflow : c.capacity ≤ indexLimit ∨ ops.length ≤ indexLimit →
    NoOverflow (trace Operation.perform ops c)

/-- A cache holds all that another holds, and finds all that it finds. -/
structure Extends {ω : Type} (large : RecencyCache κ ω ρ θ) (small : RecencyCache κ ν ρ θ) : Prop where
  keys : small.keys <+: large.keys
  /-- A lookup that calls the factory of the one calls that of the other. -/
  makes : ∀ key factory factory', .makes key ∈ ((Operation.lookup key factory').perform large).calls →
    .makes key ∈ ((Operation.lookup key factory).perform small).calls

/-- **The keys of a cache are the latest ones of its history**, and a larger cache extends a smaller one that
served the same lookups. -/
theorem run_keeps_recent_keys {κ ν ω θ : Type} {ρ : Type → Type} [SignedWord κ] [HandleStore ρ θ]
    [LawfulHandleStore ρ θ] {capacity larger : Nat} (hcapacity : 1 ≤ capacity) (hle : capacity ≤ larger) :
    ∃ (small : RecencyCache κ ν ρ θ) (large : RecencyCache κ ω ρ θ),
      ofCapacity capacity = .ok small ∧ ofCapacity larger = .ok large ∧
        (∀ c ops, Serves small c ops → c.capacity = capacity ∧ KeepsRecentKeys c ops) ∧
        ∀ c ops c' ops', Serves small c ops → Serves large c' ops' → lookedUp ops = lookedUp ops' →
          NoOverflow (trace Operation.perform ops c) → NoOverflow (trace Operation.perform ops' c') →
            Extends (finalState Operation.perform ops' c') (finalState Operation.perform ops c) := by
  obtain ⟨small, hsmall⟩ := exists_ofCapacity (κ := κ) (ν := ν) (ρ := ρ) hcapacity
  obtain ⟨large, hlarge⟩ := exists_ofCapacity (κ := κ) (ν := ω) (ρ := ρ) (hcapacity.trans hle)
  -- both caches keep a prefix of one list, the distinct keys looked up, latest first
  refine ⟨small, large, hsmall, hlarge, fun c ops hserves => ?_, ?_⟩
  · have h := hserves.emptied.represents hsmall
    refine ⟨h.capacity, fun hno => ?_, fun hfits => h.noOverflow (hfits.imp (h.capacity ▸ ·) ?_)⟩
    · obtain ⟨m, hreached, hkeys⟩ := hserves.exists_recentKeys hsmall hno
      rw [hreached.keys_eq, hkeys, h.capacity]
    · exact fun hlength => (Nat.zero_add _).trans_le hlength
  · intro c ops c' ops' hserves hserves' hsame hno hno'
    obtain ⟨m, hreached, hkeys⟩ := hserves.exists_recentKeys hsmall hno
    obtain ⟨m', hreached', hkeys'⟩ := hserves'.exists_recentKeys hlarge hno'
    have hextends : (finalState Operation.perform ops c).keys <+:
        (finalState Operation.perform ops' c').keys := by
      rw [hreached.keys_eq, hkeys, hreached'.keys_eq, hkeys', hsame]
      exact List.take_prefix_take_left hle
    -- a key that the smaller cache has is in the larger one as well, so a miss there is a miss here
    refine ⟨hextends, fun key factory factory' hmakes => ?_⟩
    rw [hreached'.makes_iff] at hmakes
    exact (hreached.makes_iff key factory).mpr fun hmem => hmakes (hextends.subset hmem)

/-- Two caches that serve the same lookups with factories of their own, after one was closed and before the
other has to make room. -/
theorem run_keeps_recent_keys_evicting :
    let small : RecencyCache Int32 Nat :=
      { capacity := 2, nodes := HandleStore.empty, index := .empty .nonNull {}, head := none, tail := none }
    let large : RecencyCache Int32 Nat :=
      { capacity := 3, nodes := HandleStore.empty, index := .empty .nonNull {}, head := none, tail := none }
    let before : List (Operation Int32 Nat) :=
      [.lookup 1 fun _ => .answers 10, .lookup 2 fun _ => .panics, .lookup 3 fun _ => .answers 30]
    let c := (Operation.close.perform (finalState Operation.perform before small)).state
    let ops : List (Operation Int32 Nat) :=
      [.lookup 4 fun _ => .answers 40, .lookup 5 fun _ => .answers 50, .lookup 4 fun _ => .panics,
        .contains 5, .lookup 6 fun _ => .answers 60]
    let ops' : List (Operation Int32 Nat) :=
      [.lookup 4 fun _ => .answers 0, .lookup 5 fun _ => .answers 0, .lookup 4 fun _ => .answers 0,
        .lookup 6 fun _ => .answers 0]
    1 ≤ small.capacity ∧ small.capacity ≤ large.capacity ∧ ofCapacity small.capacity = .ok small ∧
      ofCapacity large.capacity = .ok large ∧ Serves small c ops ∧ Serves large large ops' ∧
      lookedUp ops = lookedUp ops' ∧ NoOverflow (trace Operation.perform ops c) ∧
      NoOverflow (trace Operation.perform ops' large) ∧
      (finalState Operation.perform ops c).keys = [6, 4] ∧
      (finalState Operation.perform ops' large).keys = [6, 4, 5] ∧
      KeepsRecentKeys c ops ∧
      Extends (finalState Operation.perform ops' large) (finalState Operation.perform ops c) := by
  intro small large before c ops ops'
  have hpos : 1 ≤ small.capacity := by decide
  have hle : small.capacity ≤ large.capacity := by decide
  have hsmall : ofCapacity small.capacity = .ok small := rfl
  have hlarge : ofCapacity large.capacity = .ok large := rfl
  have hserves : Serves small c ops := ⟨.closed (by decide +kernel), by simp [ops], by decide +kernel⟩
  have hserves' : Serves large large ops' := ⟨.made, by simp [ops'], by decide +kernel⟩
  have hno : NoOverflow (trace Operation.perform ops c) := by decide +kernel
  have hno' : NoOverflow (trace Operation.perform ops' large) := by decide +kernel
  obtain ⟨s, l, hs, hl, hkeep, hextend⟩ :=
    run_keeps_recent_keys (κ := Int32) (ν := Nat) (ω := Nat) (ρ := SlotStore) hpos hle
  obtain rfl : small = s := Except.ok.inj (hsmall.symm.trans hs)
  obtain rfl : large = l := Except.ok.inj (hlarge.symm.trans hl)
  exact ⟨hpos, hle, hsmall, hlarge, hserves, hserves', rfl, hno, hno', by decide +kernel,
    by decide +kernel, (hkeep c ops hserves).2, hextend c ops large ops' hserves hserves' rfl hno hno'⟩

end RecencyCache

end LinearProbing
