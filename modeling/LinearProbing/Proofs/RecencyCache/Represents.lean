import LinearProbing.Proofs.RecencyCache.Index
import LinearProbing.Proofs.RecencyCache.Operation

/-!
# LinearProbing.Proofs.RecencyCache.Represents

**A cache of recently used values is a bounded list.** `RecencyCache.Holds` says that the linked list and the
index of a cache agree on a list of entries, and `Represents` that these are the entries of a `RecencyList`.
Every operation keeps the relation and gives what is specified (`Represents.perform`); the only exception is
a new key when the index can hold no more (`Represents.full_of_overflow`).
-/

namespace LinearProbing

/-! ### Lists with distinct keys -/

namespace RecencyList

variable {κ ν : Type} {m : RecencyList κ ν} {a b : List (κ × ν)} {key : κ} {value : ν}

theorem makeRoom_capacity (m : RecencyList κ ν) : m.makeRoom.state.capacity = m.capacity := by
  unfold makeRoom
  split <;> rfl

theorem makeRoom_subset (m : RecencyList κ ν) : m.makeRoom.state.entries ⊆ m.entries := by
  unfold makeRoom
  split
  · exact List.dropLast_subset _
  · exact List.Subset.refl _

/-- Making room leaves the list, or takes one entry away from a full one. -/
theorem makeRoom_length (m : RecencyList κ ν) :
    m.makeRoom.state.entries.length = m.entries.length ∨
      m.entries.length = m.capacity ∧ m.makeRoom.state.entries.length = m.entries.length - 1 := by
  unfold makeRoom
  split
  · next hfull => exact Or.inr ⟨hfull, List.length_dropLast⟩
  · exact Or.inl rfl

variable [DecidableEq κ]

theorem get?_of_present (hentries : m.entries = a ++ (key, value) :: b) (ha : ∀ e ∈ a, e.1 ≠ key) :
    m.get? key = some value := by
  have hnone : a.find? (·.1 = key) = none := List.find?_eq_none.mpr fun e he => by simp [ha e he]
  rw [get?, hentries, List.find?_append, hnone, Option.none_or, List.find?_cons_of_pos (by simp)]
  rfl

theorem get?_of_absent (h : ∀ e ∈ m.entries, e.1 ≠ key) : m.get? key = none := by
  rw [get?, List.find?_eq_none.mpr fun e he => by simp [h e he]]
  rfl

theorem without_of_present (hentries : m.entries = a ++ (key, value) :: b) (ha : ∀ e ∈ a, e.1 ≠ key)
    (hb : ∀ e ∈ b, e.1 ≠ key) : m.without key = { m with entries := a ++ b } := by
  rw [without, hentries, List.filter_append, List.filter_cons_of_neg (by simp),
    List.filter_eq_self.mpr fun e he => by simp [ha e he],
    List.filter_eq_self.mpr fun e he => by simp [hb e he]]

end RecencyList

namespace RecencyCache

variable {κ ν θ : Type} {ρ : Type → Type} [SignedWord κ] [HandleStore ρ θ]

/-- The linked list and the index of a cache hold the entries of a list. -/
structure Holds (c : RecencyCache κ ν ρ θ) (l : List (Linked κ ν θ)) : Prop where
  links : c.Links l []
  indexes : Indexes c.index l

/-- A cache holds the entries of a bounded list. -/
structure Represents (c : RecencyCache κ ν ρ θ) (m : RecencyList κ ν) : Prop where
  capacity : c.capacity = m.capacity
  capacity_pos : 0 < m.capacity
  len_le : m.entries.length ≤ m.capacity
  holds : ∃ l, c.Holds l ∧ m.entries = l.map Linked.entry

variable {c : RecencyCache κ ν ρ θ} {m : RecencyList κ ν} {a b l : List (Linked κ ν θ)}
variable {x : Linked κ ν θ} {key : κ}

omit [HandleStore ρ θ] in
/-- The other keys around one of a list. -/
theorem Indexes.others {index : WordKeyMap κ θ} (h : Indexes index (a ++ x :: b)) :
    (∀ e ∈ a.map Linked.entry, e.1 ≠ x.key) ∧ ∀ e ∈ b.map Linked.entry, e.1 ≠ x.key := by
  have hdistinct := List.pairwise_cons.mp
    ((List.pairwise_middle fun hne => Ne.symm hne).mp h.distinct)
  constructor
  · rintro _ hmem heq
    obtain ⟨y, hy, rfl⟩ := List.mem_map.mp hmem
    exact hdistinct.1 y (List.mem_append_left _ hy) heq.symm
  · rintro _ hmem heq
    obtain ⟨y, hy, rfl⟩ := List.mem_map.mp hmem
    exact hdistinct.1 y (List.mem_append_right _ hy) heq.symm

omit [HandleStore ρ θ] in
/-- The index knows the keys of the specified list. -/
theorem Indexes.contains_eq_get? {index : WordKeyMap κ θ} (h : Indexes index l)
    (hentries : m.entries = l.map Linked.entry) (key : κ) :
    index.contains key = (m.get? key).isSome := by
  rw [h.contains_eq, RecencyList.get?, hentries, Option.isSome_map, Bool.eq_iff_iff, List.find?_isSome,
    List.any_eq_true]
  simp [Linked.indexed, Linked.entry]

theorem exists_ofCapacity {capacity : Nat} (hcapacity : 1 ≤ capacity) :
    ∃ c : RecencyCache κ ν ρ θ, ofCapacity capacity = .ok c := by
  unfold ofCapacity
  rw [if_neg (Nat.ne_of_gt hcapacity)]
  exact ⟨_, rfl⟩

theorem represents_of_ofCapacity [LawfulHandleStore ρ θ] {capacity : Nat}
    (h : ofCapacity capacity = .ok c) : c.Represents { capacity } := by
  unfold ofCapacity at h
  split at h
  · cases h
  · next hpos =>
    obtain rfl := Except.ok.inj h
    exact
      { capacity := rfl
        capacity_pos := Nat.pos_of_ne_zero hpos
        len_le := Nat.zero_le _
        holds := ⟨[], ⟨links_nil LawfulHandleStore.get?_empty rfl rfl, indexes_empty⟩, rfl⟩ }

variable [LawfulHandleStore ρ θ]

/-! ### Known keys -/

/-- **A known key comes to the front**, with the value that it has. -/
theorem Holds.touch (h : c.Holds (a ++ x :: b)) :
    ((c.unlink x.handle).pushFront x.handle).Holds (x :: (a ++ b)) ∧
      ((c.unlink x.handle).touch x.handle).result = .ok (some x.value) := by
  have hlinks := h.links.unlink.pushFront
  have hindex : ((c.unlink x.handle).pushFront x.handle).index = c.index :=
    (pushFront_frame ..).2.trans (unlink_frame ..).2
  refine ⟨⟨hlinks, ?_⟩, ?_⟩
  · rw [hindex]
    exact h.indexes.perm List.perm_middle
  · obtain ⟨newer, older, hnode⟩ := hlinks.chain.exists_node List.mem_cons_self
    simp only [RecencyCache.touch, Change.done, hnode]
    rfl

/-! ### Making room -/

/-- **The last entry of the list is removed**, and its value handed over. -/
theorem Holds.evict (h : c.Holds (l ++ [x])) :
    c.evict.state.Holds l ∧ c.evict.state.capacity = c.capacity ∧ c.evict.disposed = [x.value] := by
  -- the tail is the last of the list: unlinked from it, erased from the store, and then its key from the
  -- index
  have hunlinked := h.links.unlink
  rw [List.append_nil] at hunlinked
  obtain ⟨newer, older, hnode⟩ := hunlinked.isApart x (List.mem_singleton.mpr rfl)
  have htail : c.tail = some x.handle := h.links.tail.trans (last_append ..)
  have hframe := unlink_frame c x.handle
  have hevict : c.evict =
      { state :=
          { c.unlink x.handle with
            nodes := HandleStore.erase (c.unlink x.handle).nodes x.handle
            index := ((c.unlink x.handle).index.erase x.key).2 }
        disposed := [x.value], events := [.entryClosed (wordText x.key)] } := by
    simp only [RecencyCache.evict, htail, hnode]
    rfl
  rw [hevict]
  refine ⟨⟨hunlinked.eraseNode.congr rfl rfl rfl, ?_⟩, hframe.1, rfl⟩
  have herased := h.indexes.erase
  rw [List.append_nil, ← hframe.2] at herased
  exact herased

/-- **Room is made** as it is for the list. -/
theorem Represents.makeRoom (h : c.Represents m) :
    c.makeRoom.state.Represents m.makeRoom.state ∧ c.makeRoom.disposed = m.makeRoom.disposed ∧
      m.makeRoom.state.entries.length < m.capacity := by
  obtain ⟨hcapacity, hpos, hle, l, hholds, hentries⟩ := h
  have hlen : c.len = m.entries.length := by rw [hholds.links.len_eq, hentries, List.length_map]
  unfold RecencyCache.makeRoom RecencyList.makeRoom
  rw [hlen, hcapacity]
  split
  · next hfull =>
    -- a full cache has an entry, since its capacity is positive; the last one goes
    rcases List.eq_nil_or_concat' l with rfl | ⟨init, x, rfl⟩
    · rw [hentries] at hfull
      exact absurd hfull hpos.ne
    · obtain ⟨hevicted, hcap, hdisposed⟩ := hholds.evict
      have hlast : m.entries = init.map Linked.entry ++ [x.entry] := by rw [hentries, List.map_append]; rfl
      have hlength : (init.map Linked.entry).length < m.capacity := by
        rw [← hfull, hlast, List.length_append]
        exact Nat.lt_succ_self _
      rw [hlast, List.dropLast_concat, List.getLast?_concat]
      exact ⟨⟨hcap.trans hcapacity, hpos, hlength.le, init, hevicted, rfl⟩, hdisposed, hlength⟩
  · next hroom =>
    exact ⟨⟨hcapacity, hpos, hle, l, hholds, hentries⟩, rfl, lt_of_le_of_ne hle hroom⟩

/-! ### New keys -/

/-- **A new key comes to the front**, unless the index can hold no more. -/
theorem Holds.addNode (h : c.Holds l) (habsent : ∀ y ∈ l, y.key ≠ key) (value : ν) :
    (∃ handle, ((c.addNode key value).andThen RecencyCache.touch).result = .ok (some value) ∧
        ((c.addNode key value).andThen RecencyCache.touch).state.capacity = c.capacity ∧
        ((c.addNode key value).andThen RecencyCache.touch).state.Holds (⟨handle, key, value⟩ :: l)) ∨
      (((c.addNode key value).andThen RecencyCache.touch).result = .error .capacityOverflow ∧
        l.length = indexLimit) := by
  have hlinks := h.links.insertNode key value
  have hinsert := h.indexes.insert (x := ⟨(HandleStore.insert c.nodes
    ({ key, value, newer := none, older := none } : RecencyNode κ ν θ)).1, key, value⟩) habsent
  unfold RecencyCache.addNode
  generalize HandleStore.insert c.nodes
    ({ key, value, newer := none, older := none } : RecencyNode κ ν θ) = added at *
  obtain ⟨handle, nodes⟩ := added
  dsimp only at hlinks hinsert ⊢
  -- the node is stored before the index is asked to grow, and linked only afterwards
  rcases hinsert with ⟨old, hresult, hindexes⟩ | ⟨hresult, hfull⟩
  · refine Or.inl ⟨handle, ?_⟩
    generalize c.index.insert key handle = inserted at hresult hindexes
    have hadded : ({ c with nodes, index := inserted.state } : RecencyCache κ ν ρ θ).Links l
        [⟨handle, key, value⟩] := hlinks.congr rfl rfl rfl
    have hfront := hadded.pushFront
    have hframe := pushFront_frame
      ({ c with nodes, index := inserted.state } : RecencyCache κ ν ρ θ) handle
    obtain ⟨newer, older, hnode⟩ := hfront.chain.exists_node List.mem_cons_self
    simp only [Change.andThen, Change.map, Change.within, hresult, Except.map, RecencyCache.touch,
      Change.done, hnode]
    exact ⟨rfl, hframe.1, hfront, hframe.2.symm ▸ hindexes⟩
  · -- a growth of the index that panics leaves a node that no list names
    refine Or.inr ⟨?_, hfull⟩
    simp only [Change.andThen, Change.map, Change.within, hresult, Except.map]

/-! ### Looking up -/

/-- A key of the list. -/
theorem Represents.lookup_of_present (h : c.Represents m) (hholds : c.Holds (a ++ x :: b))
    (hentries : m.entries = (a ++ x :: b).map Linked.entry) (factory : κ → Reply ν) :
    (c.lookup x.key factory).disposingFirst.Agrees Represents
      (m.lookup x.key factory).disposingFirst := by
  obtain ⟨ha, hb⟩ := hholds.indexes.others
  rw [List.map_append, List.map_cons] at hentries
  -- the entry is taken out of the middle and pushed to the front, on either side
  have hspec : m.lookup x.key factory =
      { toCall := .done (({ m with entries := a.map Linked.entry ++ b.map Linked.entry } :
          RecencyList κ ν).push x.key x.value) (some x.value) } := by
    rw [RecencyList.lookup, RecencyList.get?_of_present hentries ha,
      RecencyList.without_of_present hentries ha hb]
  have hlookup : c.lookup x.key factory =
      { toCall := .quiet ((c.unlink x.handle).touch x.handle) } := by
    simp only [RecencyCache.lookup, hholds.indexes.get?_of_present]
  obtain ⟨htouched, hresult⟩ := hholds.touch
  have hcapacity : ((c.unlink x.handle).pushFront x.handle).capacity = m.capacity :=
    ((pushFront_frame ..).1.trans (unlink_frame ..).1).trans h.capacity
  have hlen : m.entries.length = (a.map Linked.entry ++ b.map Linked.entry).length + 1 := by
    rw [hentries, List.length_append, List.length_append, List.length_cons, Nat.add_assoc]
  have hafter : ((c.unlink x.handle).pushFront x.handle).Represents
      (({ m with entries := a.map Linked.entry ++ b.map Linked.entry } : RecencyList κ ν).push x.key
        x.value) :=
    { capacity := hcapacity
      capacity_pos := h.capacity_pos
      len_le := hlen.symm.trans_le h.len_le
      holds := ⟨_, htouched, by rw [List.map_cons, List.map_append]; rfl⟩ }
  rw [hspec, hlookup]
  exact ⟨.of_ok hresult rfl hafter, rfl⟩

/-- A key that is not in the list: room is made, then the factory runs. -/
theorem Represents.lookup_of_absent (h : c.Represents m) (hholds : c.Holds l)
    (hentries : m.entries = l.map Linked.entry) (habsent : ∀ y ∈ l, y.key ≠ key)
    (factory : κ → Reply ν) :
    ((c.lookup key factory).disposingFirst.Agrees Represents (m.lookup key factory).disposingFirst) ∨
      ((c.lookup key factory).result = .error .capacityOverflow ∧
        m.makeRoom.state.entries.length = indexLimit) := by
  have hkeys : ∀ e ∈ m.entries, e.1 ≠ key := by
    intro e he
    rw [hentries] at he
    obtain ⟨y, hy, rfl⟩ := List.mem_map.mp he
    exact habsent y hy
  obtain ⟨hroom, hdisposed, hlt⟩ := h.makeRoom
  simp only [RecencyCache.lookup, hholds.indexes.get?_of_absent habsent, RecencyList.lookup,
    RecencyList.get?_of_absent hkeys]
  -- by now room was made; a factory that panics leaves the cache without the evicted entry
  cases factory key with
  | panics =>
      refine Or.inl ⟨⟨rfl, ends_panicked, hroom⟩, ?_⟩
      simp only [DisposingCall.disposingFirst, Call.run, hdisposed]
  | answers value =>
      obtain ⟨l', hholds', hentries'⟩ := hroom.holds
      have habsent' : ∀ y ∈ l', y.key ≠ key := fun y hy =>
        hkeys y.entry (m.makeRoom_subset (hentries' ▸ List.mem_map_of_mem hy))
      rcases hholds'.addNode habsent' value with ⟨handle, hresult, hcapacity, hadded⟩ | ⟨hresult, hfull⟩
      · have hafter : ((c.makeRoom.state.addNode key value).andThen RecencyCache.touch).state.Represents
            (m.makeRoom.state.push key value) :=
          { capacity := hcapacity.trans hroom.capacity
            capacity_pos := hroom.capacity_pos
            len_le := hlt.trans_eq m.makeRoom_capacity.symm
            holds := ⟨_, hadded, congrArg ((key, value) :: ·) hentries'⟩ }
        refine Or.inl ⟨.of_ok hresult rfl hafter, ?_⟩
        simp only [DisposingCall.disposingFirst, Call.run, hdisposed]
      · exact Or.inr ⟨hresult, by rw [hentries', List.length_map, hfull]⟩

/-- **Looking up a key does what is specified**, unless the index can hold no more. -/
theorem Represents.lookup (h : c.Represents m) (key : κ) (factory : κ → Reply ν) :
    ((c.lookup key factory).disposingFirst.Agrees Represents (m.lookup key factory).disposingFirst) ∨
      ((c.lookup key factory).result = .error .capacityOverflow ∧
        m.entries.length = indexLimit ∧ indexLimit < m.capacity) := by
  obtain ⟨l, hholds, hentries⟩ := h.holds
  rcases hholds.indexes.get?_cases key with ⟨a, x, b, rfl, rfl, -⟩ | ⟨habsent, -⟩
  · exact Or.inl (h.lookup_of_present hholds hentries factory)
  · refine (h.lookup_of_absent hholds hentries habsent factory).imp_right fun ⟨hresult, hfull⟩ => ?_
    -- a full list would have been longer than what an index holds
    have hlimit : m.entries.length ≤ indexLimit := by
      rw [hentries, List.length_map]
      exact hholds.indexes.len_le
    have hroom := h.makeRoom.2.2
    have hpos := h.capacity_pos
    rcases m.makeRoom_length with hsame | ⟨hlen, hless⟩
    · exact ⟨hresult, hsame ▸ hfull, hfull ▸ hroom⟩
    · omega

/-! ### All operations -/

/-- **Every operation does what is specified**, unless the index can hold no more. -/
theorem Represents.perform (h : c.Represents m) (op : Operation κ ν) :
    ∃ d, op.Allows m d ∧ (op.perform c).Tracks Represents (fun _ => True) d := by
  obtain ⟨l, hholds, hentries⟩ := h.holds
  have hallows : op.Allows m (op.specify m.entries m) := ⟨_, List.Perm.refl _, rfl⟩
  cases op with
  | lookup key factory =>
      refine ⟨_, hallows, ?_⟩
      rcases h.lookup key factory with hagrees | ⟨hoverflow, -⟩
      · exact Or.inl (hagrees.map _)
      · exact Or.inr ⟨congrArg (Except.map _) hoverflow, trivial⟩
  | contains key =>
      refine ⟨_, hallows, ?_⟩
      rw [Operation.perform, Operation.specify, RecencyCache.contains,
        hholds.indexes.contains_eq_get? hentries]
      exact .done h _
  | keys =>
      refine ⟨_, hallows, ?_⟩
      rw [Operation.perform, Operation.specify, hholds.links.keys_eq, RecencyList.keys, hentries,
        List.map_map]
      exact .done h _
  | len =>
      refine ⟨_, hallows, ?_⟩
      rw [Operation.perform, Operation.specify, hholds.links.len_eq, hentries, List.length_map]
      exact .done h _
  | close =>
      -- the store hands its values over in an order of its own
      have horder := (hholds.links.entries_perm.map Linked.ofNode).map Linked.entry
      have hlist := hholds.links.follow_older 0
      rw [Nat.add_zero] at hlist
      rw [hlist, ← hentries, List.map_map] at horder
      refine ⟨_, ⟨_, horder, rfl⟩, Or.inl ⟨.of_ok rfl rfl ?_, ?_⟩⟩
      · exact
          { capacity := h.capacity
            capacity_pos := h.capacity_pos
            len_le := Nat.zero_le _
            holds :=
              ⟨[], ⟨links_nil (LawfulHandleStore.get?_clear _) rfl rfl, hholds.indexes.clear⟩, rfl⟩ }
      · simp only [Operation.perform, Operation.specify, DisposingCall.ofDisposal,
          DisposingCall.disposingFirst, RecencyCache.close, Call.map, List.map_map, List.map_nil,
          List.append_nil]
        rfl

/-- A call that ends because the index can hold no more is on a list of so many keys, with room for
more. -/
theorem Represents.full_of_overflow (h : c.Represents m) {op : Operation κ ν}
    (hoverflow : (op.perform c).result = .error .capacityOverflow) :
    m.entries.length = indexLimit ∧ indexLimit < m.capacity := by
  cases op with
  | lookup key factory =>
      rcases h.lookup key factory with hagrees | ⟨-, hfull⟩
      · exact absurd rfl ((hagrees.map CacheAnswer.value?).ends _ hoverflow).1
      · exact hfull
  | contains | keys | len | close => cases hoverflow

end RecencyCache

end LinearProbing
