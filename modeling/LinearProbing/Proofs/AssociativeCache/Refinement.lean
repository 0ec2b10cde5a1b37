import LinearProbing.Proofs.AssociativeCache.Bounds
import LinearProbing.Proofs.Sizing

/-!
# LinearProbing.Proofs.AssociativeCache.Refinement

**A set-associative cache is independent queues of bounded length.** Every operation does to a cache what
it is specified to do to the lists of its sets: it gives the same result, makes and disposes of the same
values in the same order, and leaves the representation of the lists that are specified. From this, every
run of a cache mirrors a run on the lists.
-/

namespace LinearProbing

namespace AssociativeCache

variable {κ ν : Type} [SignedWord κ] {c : AssociativeCache κ ν} {m : FifoSets κ ν} {key : κ}
  {value : ν}

/-! ### Reading -/

theorem Represents.get (h : c.Represents m) (key : κ) :
    (c.get key).1 = (m.get key).1 ∧ (c.get key).2.Represents (m.get key).2 := by
  cases hget : m.get? key with
  | none =>
      simp only [AssociativeCache.get, FifoSets.get, h.position?_of_absent hget, hget]
      exact ⟨trivial, h.missed⟩
  | some value =>
      obtain ⟨i, -, -, -, -, -, -, hposition, hoccupant⟩ := h.exists_position hget
      simp only [AssociativeCache.get, FifoSets.get, hposition, hget, valueAt?_eq, hoccupant]
      exact ⟨rfl, h.hit⟩

theorem Represents.contains_eq (h : c.Represents m) (key : κ) :
    c.contains key = (m.get? key).isSome := by
  cases hget : m.get? key with
  | none => simp [contains, h.position?_of_absent hget]
  | some value =>
      obtain ⟨i, -, -, -, -, -, -, hposition, -⟩ := h.exists_position hget
      simp [contains, hposition]

/-! ### Storing -/

/-- A new key goes to the front of its set, and the cache lets go what the lists say. -/
structure Admitted (d : Disposal (AssociativeCache κ ν) ν) (s : Disposal (FifoSets κ ν) ν) : Prop where
  state : d.state.Represents s.state
  disposed : d.disposed = s.disposed
  events : d.events = s.events

theorem Represents.valueAt?_last (h : c.Represents m) (key : κ) :
    c.valueAt? (c.setStart key + c.setSize - 1) =
      (m.members key)[c.setSize - 1]?.map Resident.value := by
  have hpos := h.setSize_pos
  have hlast := h.holds_members key (c.setSize - 1) (by omega)
  rw [← Nat.add_sub_assoc (by omega)] at hlast
  rw [valueAt?_eq, hlast, Option.map_map]
  rfl

theorem Represents.insertFront (h : c.Represents m) (habsent : m.get? key = none) (value : ν) :
    Admitted (c.insertFront (c.setStart key) key value) (m.takeIn key value) ∧
      (c.insertFront (c.setStart key) key value).state.valueAt? (c.setStart key) = some value := by
  have hpos := h.setSize_pos
  have hsize := h.setSize
  have hlast := h.valueAt?_last key
  have hlength := h.length_le key
  have hedits := edits_withNewest hpos (h.window_le key) (h.holds_members key) ⟨key, value, m.admitted⟩
  have hvalid := h.valid.takeIn habsent value
  have hfront : (c.withNewest (c.setStart key) key value).valueAt? (c.setStart key) = some value := by
    have hfirst := hedits.holds 0 (hedits.setSize ▸ hpos)
    rw [Nat.add_zero] at hfirst
    rw [valueAt?_eq, hfirst]
    rfl
  -- a full set drops its oldest resident, the one in the last slot; otherwise that slot is vacant
  by_cases hfull : (m.members key).length = m.setSize
  · obtain ⟨oldest, holdest⟩ : ∃ oldest, (m.members key).getLast? = some oldest := by
      refine ⟨_, List.getLast?_eq_some_getLast ?_⟩
      rintro hnil
      rw [hnil, List.length_nil] at hfull
      omega
    have hdropped : (m.members key).take (c.setSize - 1) = (m.members key).dropLast := by
      rw [List.dropLast_eq_take, hfull, hsize]
    rw [← hsize, ← hfull, ← List.getLast?_eq_getElem?, holdest, hfull, hsize, Option.map_some] at hlast
    rw [FifoSets.takeIn_of_full hfull] at hvalid ⊢
    rw [insertFront_of_full hlast]
    rw [hdropped] at hedits
    refine ⟨⟨h.admitted.edit hedits hvalid ?_, by simp [holdest], ?_⟩, hfront⟩
    · have hlen := (rearranges_withNewest c (c.setStart key) key value).len
      change _ + (m.members key).length = _
      rw [hlen, List.length_cons, List.length_dropLast]
      omega
    · rw [h.setStart_eq, Nat.mul_div_cancel _ hpos]
  · have hlt : (m.members key).length < c.setSize := by omega
    have hall : (m.members key).take (c.setSize - 1) = m.members key :=
      List.take_of_length_le (by omega)
    rw [List.getElem?_eq_none (by omega), Option.map_none] at hlast
    rw [FifoSets.takeIn_of_room hfull] at hvalid ⊢
    rw [insertFront_of_room hlast]
    rw [hall] at hedits
    refine ⟨⟨h.admitted.edit (hedits.withLen _) hvalid ?_, rfl, rfl⟩, hfront⟩
    change c.len + 1 + (m.members key).length = c.len + (_ :: m.members key).length
    rw [List.length_cons]
    omega

theorem Represents.insert (h : c.Represents m) (key : κ) (value : ν) :
    Admitted (c.insert key value) (m.insert key value) := by
  have hstored := h.stored
  cases hget : m.get? key with
  | none =>
      have hposition := hstored.position?_of_absent hget
      rw [FifoSets.insert_of_absent hget, AssociativeCache.insert]
      simp only [hposition]
      exact (hstored.insertFront hget value).1
  -- the value is replaced where it stands: the order of admission does not change
  | some old =>
      obtain ⟨i, r, hfind, hr, hkey, -, -, hposition, hoccupant⟩ := hstored.exists_position hget
      have hedits := hstored.edits_replace hfind hr hkey value
      rw [FifoSets.insert_of_present hget, AssociativeCache.insert]
      simp only [hposition]
      refine ⟨hstored.edit hedits (hstored.valid.replace key value) ?_, ?_, rfl⟩
      · rw [List.length_map]
        rfl
      · simp only [valueAt?_eq, hoccupant]
        rfl

theorem Represents.computeIfAbsent (h : c.Represents m) (key : κ) (f : κ → Reply (Option ν)) :
    Call.Mirrors Represents (c.computeIfAbsent key f).makingFirst
      (m.computeIfAbsent key f).makingFirst := by
  cases hget : m.get? key with
  | some value =>
      obtain ⟨i, -, -, -, -, -, -, hposition, hoccupant⟩ := h.exists_position hget
      simp only [AssociativeCache.computeIfAbsent, FifoSets.computeIfAbsent, hposition, hget,
        valueAt?_eq, hoccupant]
      exact .of_ok rfl rfl h.hit rfl rfl
  | none =>
      -- the miss is counted before the function is asked, whatever it answers
      have hmissed := h.missed
      simp only [AssociativeCache.computeIfAbsent, FifoSets.computeIfAbsent,
        h.position?_of_absent hget, hget]
      cases f key with
      | panics => exact ⟨⟨⟨rfl, ends_panicked, hmissed⟩, rfl⟩, rfl⟩
      | answers made =>
          cases made with
          | none => exact .of_ok rfl rfl hmissed rfl rfl
          | some value =>
              obtain ⟨hadmitted, hfront⟩ := hmissed.stored.insertFront hget value
              refine .of_ok (congrArg Except.ok hfront) rfl hadmitted.state ?_ hadmitted.events
              exact congrArg (fun disposed : List ν => [key].map _ ++ disposed.map _) hadmitted.disposed

/-! ### Removing -/

theorem Represents.erase (h : c.Represents m) (key : κ) :
    (c.erase key).1 = (m.erase key).1 ∧ (c.erase key).2.Represents (m.erase key).2 := by
  cases hget : m.get? key with
  | none =>
      have hnone : (m.members key).eraseP (·.key = key) = m.members key :=
        List.eraseP_of_forall_not fun r hr => by simpa using FifoSets.get?_eq_none_iff.mp hget r hr
      simp only [AssociativeCache.erase, h.position?_of_absent hget, FifoSets.erase, hget, hnone,
        FifoSets.withMembers_members]
      exact ⟨trivial, h⟩
  | some value =>
      obtain ⟨i, r, hfind, hr, -, -, hi, hposition, hoccupant⟩ := h.exists_position hget
      have hlt := (List.getElem?_eq_some_iff.mp hr).1
      have herase : (m.members key).eraseP (·.key = key) = (m.members key).eraseIdx i := by
        rw [List.eraseP_eq_eraseIdx, hfind]
      -- the residents behind the removed one move up, as in the list
      have hedits := edits_close hi (h.window_le key) (h.length_le key) (h.holds_members key)
      have hvalid := h.valid.erase key
      have hsome : (m.members key).length ≤ c.len := by
        rw [h.len]
        exact FifoSets.length_members_le h.valid key
      simp only [FifoSets.erase, herase, hget] at hvalid ⊢
      simp only [AssociativeCache.erase, hposition, valueAt?_eq, hoccupant]
      refine ⟨rfl, h.edit (hedits.withLen _) hvalid ?_⟩
      change c.len - 1 + (m.members key).length = c.len + ((m.members key).eraseIdx i).length
      rw [List.length_eraseIdx_of_lt hlt]
      omega

theorem occupant?_clear (c : AssociativeCache κ ν) (j : Nat) : c.clear.state.occupant? j = none := by
  simp only [occupant?, slotAt, clear]
  by_cases hj : j < c.slots.size <;> simp [hj]

theorem Represents.clear (h : c.Represents m) : Admitted c.clear m.clear where
  state :=
    { h with
      valid := h.valid.clear
      size := by simpa [AssociativeCache.clear] using h.size
      holds := fun j _ i _ => by simp [occupant?_clear, FifoSets.clear]
      len := by simp [AssociativeCache.clear, FifoSets.clear, FifoSets.size] }
  disposed := by rw [AssociativeCache.clear, FifoSets.clear, h.entries_eq]
  events := by rw [AssociativeCache.clear, FifoSets.clear, h.len]

theorem Admitted.mirrors {d : Disposal (AssociativeCache κ ν) ν} {s : Disposal (FifoSets κ ν) ν}
    (h : Admitted d s) :
    Call.Mirrors Represents (DisposingCall.ofDisposal d : DisposingCall _ κ ν Unit).makingFirst
      (DisposingCall.ofDisposal s).makingFirst :=
  .of_ok rfl rfl h.state (congrArg (List.map CacheInvocation.disposes) h.disposed) h.events

/-! ### Runs -/

/-- **Each operation does what it is specified to do.** -/
theorem Represents.mirrors [BEq ν] (op : Operation κ ν) (h : c.Represents m) :
    (op.perform c).Mirrors Represents (op.specify m) := by
  cases op with
  | get key =>
      obtain ⟨hresult, hstate⟩ := h.get key
      exact .done hstate (congrArg CacheAnswer.value? hresult)
  | contains key => exact .done h (congrArg CacheAnswer.flag (h.contains_eq key))
  | containsValue value =>
      refine .done h (congrArg CacheAnswer.flag ?_)
      rw [containsValue, h.entries_eq]
  | insert key value => exact (h.insert key value).mirrors.map _
  | computeIfAbsent key f => exact (h.computeIfAbsent key f).map _
  | erase key =>
      obtain ⟨hresult, hstate⟩ := h.erase key
      exact .done hstate (congrArg CacheAnswer.value? hresult)
  | clear => exact h.clear.mirrors.map _
  | resetCounters => exact .done h.resetCounters rfl
  | entries => exact .done h (congrArg CacheAnswer.listed h.entries_eq)
  | forEach f =>
      rw [Operation.perform, AssociativeCache.forEach, h.entries_eq]
      exact ((Call.Mirrors.forEach h _ _).mapCalls _).map _
  | len => exact .done h (congrArg CacheAnswer.count h.len)

/-- An operation on a key puts a list in the place of its set, and counts. -/
theorem Operation.exists_state_specify [BEq ν] {op : Operation κ ν} (hop : op.key? = some key)
    (m : FifoSets κ ν) :
    ∃ l admitted hits misses puts,
      (op.specify m).state = { m with admitted, hits, misses, puts }.withMembers key l := by
  -- the operation may rewrite the one set of its key; the rest of the state is counters
  have hsame : ∀ m : FifoSets κ ν, ∃ l admitted hits misses puts,
      m = { m with admitted, hits, misses, puts }.withMembers key l :=
    fun m => ⟨_, _, _, _, _, FifoSets.withMembers_members.symm⟩
  have hadmit : ∀ (m : FifoSets κ ν) (value : ν), ∃ l admitted hits misses puts,
      (m.takeIn key value).state = { m with admitted, hits, misses, puts }.withMembers key l := by
    intro m value
    by_cases hfull : (m.members key).length = m.setSize
    · exact ⟨_, _, _, _, _, congrArg Disposal.state (FifoSets.takeIn_of_full hfull)⟩
    · exact ⟨_, _, _, _, _, congrArg Disposal.state (FifoSets.takeIn_of_room hfull)⟩
  cases op with
  | contains k => cases hop; exact hsame m
  | get k =>
      cases hop
      cases hget : m.get? key <;> simp only [specify, FifoSets.get, hget]
      · exact hsame { m with misses := m.misses + 1 }
      · exact hsame { m with hits := m.hits + 1 }
  | insert k value =>
      cases hop
      cases hget : m.get? key with
      | none =>
          simp only [specify, FifoSets.insert_of_absent hget]
          exact hadmit { m with puts := m.puts + 1 } value
      | some old =>
          simp only [specify, FifoSets.insert_of_present hget]
          exact ⟨_, _, _, _, _, rfl⟩
  | computeIfAbsent k f =>
      cases hop
      cases hget : m.get? key with
      | some value =>
          simp only [specify, FifoSets.computeIfAbsent, hget]
          exact hsame { m with hits := m.hits + 1 }
      | none =>
          simp only [specify, FifoSets.computeIfAbsent, hget]
          cases f key with
          | panics => exact hsame { m with misses := m.misses + 1 }
          | answers made =>
              cases made with
              | none => exact hsame { m with misses := m.misses + 1 }
              | some value =>
                  exact hadmit { m with misses := m.misses + 1, puts := m.puts + 1 } value
  | erase k => cases hop; exact ⟨_, _, _, _, _, rfl⟩
  | _ => cases hop

/-- **An operation on a key leaves the other sets as they are.** -/
theorem Operation.sets_specify [BEq ν] {op : Operation κ ν} (hop : op.key? = some key) {j : Nat}
    (hj : j ≠ m.setOf key) : (op.specify m).state.sets j = m.sets j := by
  obtain ⟨l, _, _, _, _, hstate⟩ := exists_state_specify hop m
  rw [hstate]
  exact FifoSets.sets_withMembers_of_ne hj

theorem Operation.state_specify_forEach [BEq ν] (f : κ → ν → Reply Unit) (m : FifoSets κ ν) :
    ((forEach f).specify m).state = m :=
  Call.state_forEach ..

theorem Operation.dimensions_specify [BEq ν] (op : Operation κ ν) (m : FifoSets κ ν) :
    (op.specify m).state.numSets = m.numSets ∧ (op.specify m).state.setSize = m.setSize := by
  cases hop : op.key? with
  | some key =>
      obtain ⟨l, _, _, _, _, hstate⟩ := exists_state_specify hop m
      rw [hstate]
      exact ⟨rfl, rfl⟩
  | none =>
      cases op with
      | forEach f =>
          rw [state_specify_forEach]
          exact ⟨rfl, rfl⟩
      | _ => first | exact ⟨rfl, rfl⟩ | cases hop

theorem dimensions_finalState [BEq ν] (ops : List (Operation κ ν)) (m : FifoSets κ ν) :
    (finalState Operation.specify ops m).numSets = m.numSets ∧
      (finalState Operation.specify ops m).setSize = m.setSize := by
  induction ops generalizing m with
  | nil => exact ⟨rfl, rfl⟩
  | cons op rest ih =>
      obtain ⟨hsets, hways⟩ := op.dimensions_specify m
      exact ⟨(ih _).1.trans hsets, (ih _).2.trans hways⟩

/-- **What a full set lets go for a new key is the entry that has been in it longest.** -/
theorem Represents.exists_oldest (h : c.Represents m) (habsent : m.get? key = none)
    (hfull : (m.members key).length = m.setSize) :
    ∃ oldest ∈ m.members key, (∀ r ∈ m.members key, r ≠ oldest → oldest.born < r.born) ∧
      ∀ value, (c.insert key value).disposed = [oldest.value] ∧
        ∀ f, f key = .answers (some value) → (c.computeIfAbsent key f).disposed = [oldest.value] := by
  obtain ⟨oldest, hmem, hborn, hdisposed⟩ := h.valid.exists_oldest hfull
  refine ⟨oldest, hmem, hborn, fun value => ?_⟩
  have hvalue := FifoSets.disposed_takeIn.symm.trans (hdisposed value)
  constructor
  · rw [(h.insert key value).disposed, FifoSets.insert_of_absent habsent]
    exact FifoSets.disposed_takeIn.trans hvalue
  · intro f hf
    simp only [AssociativeCache.computeIfAbsent, h.position?_of_absent habsent, hf]
    exact (h.missed.stored.insertFront habsent value).1.disposed.trans
      (FifoSets.disposed_takeIn.trans hvalue)

/-! ### New caches -/

theorem roundedDimension_eq_ok {requested rounded : Nat}
    (h : roundedDimension requested = .ok rounded) :
    rounded = leastPowerOfTwo requested ∧ 0 < rounded := by
  obtain ⟨k, hk⟩ := exists_leastPowerOfTwo requested
  simp only [roundedDimension] at h
  split at h
  · exact absurd h (by simp)
  split at h
  · obtain rfl := Except.ok.inj h
    exact ⟨rfl, hk ▸ Nat.two_pow_pos k⟩
  · exact absurd h (by simp)

theorem represents_of_ofDimensions {sets ways : Nat} (hc : ofDimensions sets ways = .ok c) :
    c.numSets = leastPowerOfTwo sets ∧ c.setSize = leastPowerOfTwo ways ∧
      c.Represents { numSets := c.numSets, setSize := c.setSize } := by
  simp only [ofDimensions, bind, Except.bind] at hc
  split at hc
  · exact absurd hc (by simp)
  next numSets hsets =>
  split at hc
  · exact absurd hc (by simp)
  next setSize hways =>
  split at hc
  · obtain rfl := Except.ok.inj hc
    obtain ⟨hnumSets, hsetsPos⟩ := roundedDimension_eq_ok hsets
    obtain ⟨hsetSize, hwaysPos⟩ := roundedDimension_eq_ok hways
    refine ⟨hnumSets, hsetSize, ?_⟩
    exact
      -- all slots are vacant and all lists of residents empty
      { valid := FifoSets.valid_empty hsetsPos hwaysPos
        numSets := rfl
        setSize := rfl
        size := Array.size_replicate
        holds := fun j _ i _ => by
          simp only [occupant?, slotAt, Array.getD_eq_getD_getElem?, Array.getElem?_replicate]
          split <;> rfl
        len := by simp [FifoSets.size]
        hits := rfl
        misses := rfl
        puts := rfl }
  · exact absurd hc (by simp [throw, throwThe, MonadExceptOf.throw])

/-! ### Every run -/

/-- A run of a cache is a run on independent queues of bounded length. -/
structure RefinesFifoSets {κ ν : Type} [SignedWord κ] [BEq ν] (ops : List (Operation κ ν))
    (c : AssociativeCache κ ν) (new : FifoSets κ ν) : Prop where
  /-- Every call does what is specified, with the values made and disposed of, and leaves the
  representation of the lists that are specified. -/
  mirrors : List.Forall₂ (Call.Mirrors Represents) (trace Operation.perform ops c)
    (trace Operation.specify ops new)
  represents : (finalState Operation.perform ops c).Represents (finalState Operation.specify ops new)
  len_eq : (finalState Operation.perform ops c).len =
    ∑ j ∈ Finset.range new.numSets, ((finalState Operation.specify ops new).sets j).length
  len_le : (finalState Operation.perform ops c).len ≤ new.numSets * new.setSize
  /-- No operation computes a slot index that is out of bounds. -/
  bounds : ∀ op : Operation κ ν, op.performChecked (finalState Operation.perform ops c) =
    some (op.perform (finalState Operation.perform ops c))
  /-- An operation on a key changes no other set. -/
  frame : ∀ (op : Operation κ ν) (key : κ), op.key? = some key →
    ∀ j ≠ new.setOf key, (op.specify (finalState Operation.specify ops new)).state.sets j =
      (finalState Operation.specify ops new).sets j
  /-- What a full set lets go for a new key is the entry that has been in it longest. -/
  oldest : ∀ key, (finalState Operation.specify ops new).get? key = none →
    ((finalState Operation.specify ops new).members key).length = new.setSize →
    ∃ oldest ∈ (finalState Operation.specify ops new).members key,
      (∀ r ∈ (finalState Operation.specify ops new).members key, r ≠ oldest → oldest.born < r.born) ∧
      ∀ value, ((finalState Operation.perform ops c).insert key value).disposed = [oldest.value] ∧
        ∀ f, f key = .answers (some value) →
          ((finalState Operation.perform ops c).computeIfAbsent key f).disposed = [oldest.value]

/-- **Every run of a set-associative cache is a run on independent queues of bounded length.** -/
theorem run_refines_fifoSets {κ ν : Type} [SignedWord κ] [BEq ν] {sets ways : Nat}
    {c : AssociativeCache κ ν} (hc : ofDimensions sets ways = .ok c) (ops : List (Operation κ ν)) :
    RefinesFifoSets ops c
      { numSets := leastPowerOfTwo sets, setSize := leastPowerOfTwo ways } := by
  obtain ⟨hnumSets, hsetSize, hnew⟩ := represents_of_ofDimensions hc
  rw [hnumSets, hsetSize] at hnew
  obtain ⟨hall, hreached⟩ := forall₂_mirrors (fun op _ _ h => h.mirrors op) ops hnew
  obtain ⟨hsets, hways⟩ := dimensions_finalState (κ := κ) (ν := ν) ops
    { numSets := leastPowerOfTwo sets, setSize := leastPowerOfTwo ways }
  refine
    -- the reached state means a reached list of sets, and every part is read off that
    { mirrors := hall
      represents := hreached
      len_eq := ?_
      len_le := ?_
      bounds := hreached.performChecked_eq
      frame := ?_
      oldest := ?_ }
  · rw [hreached.len, FifoSets.size, hsets]
  · rw [hreached.len, ← hsets, ← hways]
    exact hreached.valid.size_le
  · intro op key hop j hj
    refine Operation.sets_specify hop ?_
    rwa [FifoSets.setOf, hsets]
  · intro key habsent hfull
    exact hreached.exists_oldest habsent (hfull.trans hways.symm)

/-- A run in which a set is full when a new key comes: reads and replacements do not make an entry
younger. -/
theorem run_refines_fifoSets_evicting :
    let new : AssociativeCache Int32 Nat :=
      { slots := Array.replicate 4 ⟨0, none⟩, numSets := 2, setSize := 2, len := 0
        hits := 0, misses := 0, puts := 0 }
    let ops : List (Operation Int32 Nat) :=
      [.insert 1 10, .insert 2 20, .get 1, .insert 1 11, .insert 5 50, .get 2, .insert 6 60, .erase 6,
        .computeIfAbsent 8 fun _ => .panics, .computeIfAbsent 8 fun _ => .answers none,
        .computeIfAbsent 7 fun _ => .answers (some 70), .insert 3 30, .clear, .len]
    ofDimensions 2 2 = .ok new ∧
      (trace Operation.perform ops new).map (·.calls) =
        [[], [], [], [.disposes 10], [.disposes 11], [], [.disposes 20], [], [.makes 8], [.makes 8],
          [.makes 7], [], [.disposes 50, .disposes 30, .disposes 70], []] ∧
      RefinesFifoSets ops new { numSets := leastPowerOfTwo 2, setSize := leastPowerOfTwo 2 } := by
  intro new ops
  have hnew : ofDimensions 2 2 = .ok new := rfl
  exact ⟨hnew, by decide +kernel, run_refines_fifoSets hnew ops⟩

end AssociativeCache

end LinearProbing
