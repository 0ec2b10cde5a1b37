import LinearProbing.Proofs.RecencyCache.Represents

/-!
# LinearProbing.Proofs.RecencyCache.Refinement

**A cache of recently used values is a bounded list of distinct keys, the most recently used first.** `Shows`
says so in terms of what can be seen of a cache: following the nodes from `head` and from `tail`, reading the
store, and asking the index. Every call of a run does what is specified on the list and leaves a cache that
shows what is specified; and each value in the list is the one that the factory has built last for its key.

One thing the list does not know: an index has a greatest table. A run is served up to the first new key that
finds the index full (`run_refines_recencyList`). That takes more calls than `indexLimit`, which is above
`2 ^ 61`, and a cache of a greater capacity.
-/

namespace LinearProbing

namespace RecencyCache

variable {κ ν θ : Type} {ρ : Type → Type} [SignedWord κ] [HandleStore ρ θ]

/-! ### What can be seen -/

/-- The nodes of a cache from `head` to `tail`, with their handles. -/
def fromHead (c : RecencyCache κ ν ρ θ) : List (θ × RecencyNode κ ν θ) :=
  c.follow RecencyNode.older c.len c.head

/-- A cache shows a list, wherever one looks. -/
structure Shows (c : RecencyCache κ ν ρ θ) (m : RecencyList κ ν) : Prop where
  capacity : c.capacity = m.capacity
  length_le : m.entries.length ≤ m.capacity
  distinct : m.keys.Nodup
  /-- From `head` on, each node names the next one, and the last one none. -/
  forward : ∀ more, (c.follow RecencyNode.older (c.len + more) c.head).map
    (fun e => (e.2.key, e.2.value)) = m.entries
  /-- From `tail` on, the same nodes are met in the other direction. -/
  backward : ∀ more, c.follow RecencyNode.newer (c.len + more) c.tail = c.fromHead.reverse
  /-- The store holds these nodes and no others. -/
  nodes : (HandleStore.entries c.nodes).Perm c.fromHead
  /-- The index maps the keys of these nodes, and no others, to the nodes. -/
  index : ∀ key handle,
    c.index.get? key = some handle ↔ ∃ node, (handle, node) ∈ c.fromHead ∧ node.key = key
  index_len : c.index.len = m.entries.length

variable {c : RecencyCache κ ν ρ θ} {m : RecencyList κ ν} {l : List (Linked κ ν θ)} {key : κ}

omit [SignedWord κ] in
/-- Nodes that are met are known by their handles. -/
theorem eq_of_map_ofNode {a b : List (θ × RecencyNode κ ν θ)} (ha : ∀ e ∈ a, c.node? e.1 = some e.2)
    (hb : ∀ e ∈ b, c.node? e.1 = some e.2) (h : a.map Linked.ofNode = b.map Linked.ofNode) : a = b := by
  induction a generalizing b with
  | nil => exact (List.map_eq_nil_iff.mp h.symm).symm
  | cons x rest ih =>
      cases b with
      | nil => cases h
      | cons y rest' =>
          obtain ⟨hx, hrest⟩ := List.forall_mem_cons.mp ha
          obtain ⟨hy, hrest'⟩ := List.forall_mem_cons.mp hb
          obtain ⟨hfirst, hothers⟩ := List.cons.inj h
          have hhandle : x.1 = y.1 := congrArg Linked.handle hfirst
          have hnode : x.2 = y.2 := Option.some.inj (hx.symm.trans (hhandle ▸ hy))
          rw [Prod.ext hhandle hnode, ih hrest hrest' hothers]

variable [LawfulHandleStore ρ θ]

theorem Holds.map_fromHead (h : c.Holds l) : c.fromHead.map Linked.ofNode = l := by
  rw [fromHead, h.links.len_eq]
  exact h.links.follow_older 0

/-- The index finds the nodes of the list by their keys. -/
theorem Holds.get?_eq_some_iff (h : c.Holds l) {handle : θ} :
    c.index.get? key = some handle ↔ ∃ node, (handle, node) ∈ c.fromHead ∧ node.key = key := by
  -- the nodes met from the head are the elements of the list, handle by handle
  have hmem : (∃ node, (handle, node) ∈ c.fromHead ∧ node.key = key) ↔
      ∃ x ∈ l, x.handle = handle ∧ x.key = key := by
    rw [← h.map_fromHead]
    constructor
    · rintro ⟨node, hnode, rfl⟩
      exact ⟨_, List.mem_map_of_mem hnode, rfl, rfl⟩
    · rintro ⟨_, hx, rfl, rfl⟩
      obtain ⟨e, he, rfl⟩ := List.mem_map.mp hx
      exact ⟨e.2, he, rfl⟩
  rw [hmem]
  rcases h.indexes.get?_cases key with ⟨a, x, b, rfl, rfl, hget⟩ | ⟨habsent, hget⟩
  · rw [hget, Option.some.injEq]
    refine ⟨fun heq => ⟨x, List.mem_append_right _ List.mem_cons_self, heq, rfl⟩, ?_⟩
    -- no other element has the key, so the node with the key is the indexed one
    rintro ⟨y, hy, rfl, hkey⟩
    obtain ⟨ha, hb⟩ := h.indexes.others
    rcases List.mem_append.mp hy with hy | hy
    · exact absurd hkey (ha _ (List.mem_map_of_mem hy))
    · rcases List.mem_cons.mp hy with rfl | hy
      · rfl
      · exact absurd hkey (hb _ (List.mem_map_of_mem hy))
  · rw [hget]
    exact ⟨nofun, fun ⟨x, hx, _, hkey⟩ => absurd hkey (habsent x hx)⟩

/-- **A cache that holds the entries of a list shows it.** -/
theorem Represents.shows (h : c.Represents m) : c.Shows m := by
  obtain ⟨hcapacity, -, hle, l, hholds, hentries⟩ := h
  have hlen := hholds.links.len_eq
  refine
    -- both walks list the same chain, one the reverse of the other, and the chain is the list
    { capacity := hcapacity
      length_le := hle
      distinct := ?_
      forward := fun more => ?_
      backward := fun more => ?_
      nodes := ?_
      index := fun _ _ => hholds.get?_eq_some_iff
      index_len := ?_ }
  · rw [RecencyList.keys, hentries, List.map_map]
    exact List.pairwise_map.mpr hholds.indexes.distinct
  · have hlist := congrArg (List.map Linked.entry) (hholds.links.follow_older more)
    rw [hlen, hentries, ← hlist, List.map_map]
    rfl
  · refine eq_of_map_ofNode (fun _ => node?_of_mem_follow)
      (fun _ he => node?_of_mem_follow (List.mem_reverse.mp he)) ?_
    rw [hlen, hholds.links.follow_newer, List.map_reverse, hholds.map_fromHead]
  · rw [fromHead, hlen]
    exact hholds.links.entries_perm
  · rw [hentries, List.length_map]
    exact hholds.indexes.len_eq

/-! ### Where the values come from -/

/-- An entry that an operation leaves was there before, and the factory was not called for its key; or the
operation is a lookup of its key, and the value is what the factory answered. -/
theorem Operation.mem_specify {op : Operation κ ν} {order : List (κ × ν)} {e : κ × ν}
    (he : e ∈ (op.specify order m).state.entries) :
    (e ∈ m.entries ∧ .makes e.1 ∉ (op.specify order m).calls) ∨
      ∃ factory, op = .lookup e.1 factory ∧ factory e.1 = .answers e.2 ∧
        .makes e.1 ∈ (op.specify order m).calls := by
  -- only a lookup brings an entry in, and only as the one it has just built
  cases op with
  | contains | keys | len => exact Or.inl ⟨he, List.not_mem_nil⟩
  | close => exact absurd he List.not_mem_nil
  | lookup key factory =>
      cases hget : m.get? key with
      | some value =>
          simp only [specify, RecencyList.lookup, hget] at he ⊢
          refine Or.inl ⟨?_, List.not_mem_nil⟩
          obtain ⟨⟨k, v⟩, hfind, rfl⟩ := Option.map_eq_some_iff.mp hget
          rcases List.mem_cons.mp he with rfl | he
          · obtain rfl : k = key := by simpa using List.find?_some hfind
            exact List.mem_of_find?_eq_some hfind
          · exact (List.mem_filter.mp he).1
      | none =>
          have habsent : ∀ e ∈ m.entries, e.1 ≠ key := by
            simpa [RecencyList.get?, List.find?_eq_none] using hget
          -- on a miss the factory is asked after room was made, whatever it answers
          have hcalls : ((Operation.lookup key factory).specify order m).calls =
              m.makeRoom.disposed.map .disposes ++ [.makes key] := by
            simp only [specify, RecencyList.lookup, hget]
            cases factory key <;> rfl
          have hkept : ∀ e ∈ m.makeRoom.state.entries, e ∈ m.entries ∧
              .makes e.1 ∉ m.makeRoom.disposed.map (CacheInvocation.disposes (κ := κ)) ++ [.makes key] :=
            fun e he => ⟨m.makeRoom_subset he, by simp [habsent e (m.makeRoom_subset he)]⟩
          rw [hcalls]
          simp only [specify, RecencyList.lookup, hget] at he
          cases hreply : factory key with
          | panics =>
              rw [hreply] at he
              exact Or.inl (hkept e he)
          | answers value =>
              rw [hreply] at he
              rcases List.mem_cons.mp he with rfl | he
              · exact Or.inr ⟨factory, rfl, hreply, List.mem_append_right _ List.mem_cons_self⟩
              · exact Or.inl (hkept e he)

/-- An operation adds one entry at most. -/
theorem Operation.length_specify_le (op : Operation κ ν) (order : List (κ × ν)) (m : RecencyList κ ν) :
    (op.specify order m).state.entries.length ≤ m.entries.length + 1 := by
  cases op with
  | contains | keys | len => exact Nat.le_succ _
  | close => exact Nat.zero_le _
  | lookup key factory =>
      -- making room never makes the list longer
      have hroom : m.makeRoom.state.entries.length ≤ m.entries.length := by
        rcases m.makeRoom_length with hsame | ⟨-, hless⟩ <;> omega
      cases hget : m.get? key with
      | some value =>
          simp only [specify, RecencyList.lookup, hget]
          exact Nat.succ_le_succ (List.length_filter_le ..)
      | none =>
          simp only [specify, RecencyList.lookup, hget]
          cases factory key with
          | panics => exact hroom.trans (Nat.le_succ _)
          | answers value => exact Nat.succ_le_succ hroom

theorem Operation.capacity_specify (op : Operation κ ν) (order : List (κ × ν)) (m : RecencyList κ ν) :
    (op.specify order m).state.capacity = m.capacity := by
  cases op with
  | contains | keys | len | close => rfl
  | lookup key factory =>
      cases hget : m.get? key with
      | some value =>
          simp only [specify, RecencyList.lookup, hget]
          rfl
      | none =>
          simp only [specify, RecencyList.lookup, hget]
          cases factory key <;> exact m.makeRoom_capacity

/-- In a run from a cache, the latest call of a factory for the key of an entry has built its value. -/
def BuiltLast (ops : List (Operation κ ν)) (c : RecencyCache κ ν ρ θ) (e : κ × ν) : Prop :=
  ∃ before factory after, ops = before ++ .lookup e.1 factory :: after ∧ factory e.1 = .answers e.2 ∧
    let call := (Operation.lookup e.1 factory).perform (finalState Operation.perform before c)
    .makes e.1 ∈ call.calls ∧ ∀ d ∈ trace Operation.perform after call.state, .makes e.1 ∉ d.calls

/-- **A run leaves entries that were there before, or that it has built.** -/
theorem Represents.exists_built (ops : List (Operation κ ν)) (h : c.Represents m)
    (hno : NoOverflow (trace Operation.perform ops c)) :
    ∃ m', (finalState Operation.perform ops c).Represents m' ∧ m'.capacity = m.capacity ∧
      m'.entries.length ≤ m.entries.length + ops.length ∧
      ∀ e ∈ m'.entries,
        (e ∈ m.entries ∧ ∀ d ∈ trace Operation.perform ops c, .makes e.1 ∉ d.calls) ∨
          BuiltLast ops c e := by
  induction ops generalizing c m with
  | nil => exact ⟨m, h, rfl, le_rfl, fun e he => Or.inl ⟨he, nofun⟩⟩
  | cons op rest ih =>
      obtain ⟨_, ⟨order, -, rfl⟩, hagrees | ⟨hoverflow, -⟩⟩ := h.perform op
      · obtain ⟨m', hfinal, hcapacity, hlength, hbuilt⟩ :=
          ih hagrees.state fun d hd => hno d (List.mem_cons_of_mem _ hd)
        have hone := op.length_specify_le order m
        refine ⟨m', hfinal, hcapacity.trans (op.capacity_specify order m), ?_, fun e he => ?_⟩
        · rw [List.length_cons]
          omega
        -- an entry of the last state was there after the first step or was built later; the first step either
        -- kept it or built it itself
        rcases hbuilt e he with ⟨hkept, hrest⟩ | ⟨before, factory, after, rfl, hlatest⟩
        · rcases Operation.mem_specify hkept with ⟨hmem, hcalls⟩ | ⟨factory, rfl, hreply, hmakes⟩
          · exact Or.inl ⟨hmem, List.forall_mem_cons.mpr ⟨hagrees.calls ▸ hcalls, hrest⟩⟩
          · exact Or.inr ⟨[], factory, rest, rfl, hreply, hagrees.calls ▸ hmakes, hrest⟩
        · exact Or.inr ⟨op :: before, factory, after, rfl, hlatest⟩
      · exact absurd hoverflow (hno _ List.mem_cons_self)

/-- The index of a cache never fills up in a run, unless both the capacity and the run are longer than what
an index holds. -/
theorem Represents.noOverflow {m : RecencyList κ ν} (h : c.Represents m) {ops : List (Operation κ ν)}
    (hfits : m.capacity ≤ indexLimit ∨ m.entries.length + ops.length ≤ indexLimit) :
    NoOverflow (trace Operation.perform ops c) := by
  obtain ⟨served, unserved, rfl, hno, hfirst⟩ := exists_served Operation.perform ops c
  cases unserved with
  | nil => rwa [List.append_nil]
  | cons op rest =>
      obtain ⟨m', hreached, hsame, hlength, -⟩ := h.exists_built served hno
      obtain ⟨hfull, hlimit⟩ := hreached.full_of_overflow (hfirst op rest rfl)
      rw [List.length_append, List.length_cons] at hfits
      omega

/-! ### Every run -/

/-- A run of a new cache is a run on a bounded list. -/
structure RefinesRecencyList (ops : List (Operation κ ν)) (c : RecencyCache κ ν ρ θ) (capacity : Nat) :
    Prop where
  /-- Every call does what is specified, with the values made and disposed of, and leaves a cache that shows
  the list that is specified. -/
  calls : ∃ calls, Runs Operation.Allows ops { capacity } calls ∧
    List.Forall₂ (Call.Agrees Shows) (trace Operation.perform ops c) calls
  /-- The values in the list are those that the factory has built last. -/
  reached : ∃ m, (finalState Operation.perform ops c).Shows m ∧ m.capacity = capacity ∧
    ∀ e ∈ m.entries, BuiltLast ops c e

/-- **Every run of a cache is a run on a bounded list**, up to the first new key for which there is no table
that could be its index. That is a key after more than `indexLimit` calls on a cache of greater capacity. -/
theorem run_refines_recencyList {κ ν θ : Type} {ρ : Type → Type} [SignedWord κ] [HandleStore ρ θ]
    [LawfulHandleStore ρ θ] {capacity : Nat} (hcapacity : 1 ≤ capacity) :
    ∃ c : RecencyCache κ ν ρ θ, ofCapacity capacity = .ok c ∧ ∀ ops : List (Operation κ ν),
      ∃ served unserved, ops = served ++ unserved ∧ RefinesRecencyList served c capacity ∧
        ∀ op rest, unserved = op :: rest →
          (op.perform (finalState Operation.perform served c)).result = .error .capacityOverflow ∧
            indexLimit < capacity ∧ indexLimit ≤ served.length := by
  obtain ⟨c, hc⟩ := exists_ofCapacity (κ := κ) (ν := ν) (ρ := ρ) hcapacity
  refine ⟨c, hc, fun ops => ?_⟩
  have hrepresents := represents_of_ofCapacity hc
  obtain ⟨served, unserved, hsplit, hno, hfirst⟩ := exists_served Operation.perform ops c
  obtain ⟨⟨calls, hruns, hall⟩, -⟩ := exists_runs (fun op _ _ h => h.perform op) served hrepresents hno
  obtain ⟨m, hreached, hsame, hlength, hbuilt⟩ := hrepresents.exists_built served hno
  refine ⟨served, unserved, hsplit, ⟨⟨calls, hruns, ?_⟩, m, hreached.shows, hsame, ?_⟩, ?_⟩
  · exact hall.imp fun _ _ hagrees => hagrees.imp fun _ _ h => h.shows
  · -- a new cache has no entries
    exact fun e he => (hbuilt e he).resolve_left fun hkept => List.not_mem_nil hkept.1
  · intro op rest hunserved
    have hoverflow := hfirst op rest hunserved
    obtain ⟨hfull, hlimit⟩ := hreached.full_of_overflow hoverflow
    exact ⟨hoverflow, hlimit.trans_eq hsame, hfull ▸ hlength.trans_eq (Nat.zero_add _)⟩

/-- A run in which full lists make room, once for a value that the factory then fails to build, and handles
are used again. -/
theorem run_refines_recencyList_evicting :
    let new : RecencyCache Int32 Nat :=
      { capacity := 2, nodes := HandleStore.empty, index := .empty .nonNull {}, head := none, tail := none }
    let ops : List (Operation Int32 Nat) :=
      [.lookup 1 fun _ => .answers 10, .lookup 2 fun _ => .answers 20, .lookup 1 fun _ => .panics,
        .lookup 3 fun _ => .answers 30, .contains 2, .keys, .lookup 4 fun _ => .panics, .len,
        .lookup 2 fun _ => .answers 21, .close, .lookup 4 fun _ => .answers 40]
    1 ≤ new.capacity ∧ ofCapacity new.capacity = .ok new ∧
      (trace Operation.perform ops new).map (·.calls) =
        [[.makes 1], [.makes 2], [], [.disposes 20, .makes 3], [], [], [.disposes 10, .makes 4], [],
          [.makes 2], [.disposes 21, .disposes 30], [.makes 4]] ∧
      (trace Operation.perform ops new).map (·.state.keys) =
        [[1], [2, 1], [1, 2], [3, 1], [3, 1], [3, 1], [3], [3], [2, 3], [], [4]] ∧
      RefinesRecencyList ops new new.capacity := by
  intro new ops
  have hpos : 1 ≤ new.capacity := by decide
  have hnew : ofCapacity new.capacity = .ok new := rfl
  refine ⟨hpos, hnew, by decide +kernel, by decide +kernel, ?_⟩
  obtain ⟨c, hc, hruns⟩ := run_refines_recencyList (κ := Int32) (ν := Nat) (ρ := SlotStore) hpos
  obtain rfl : new = c := Except.ok.inj (hnew.symm.trans hc)
  obtain ⟨served, unserved, hsplit, hrefines, hrest⟩ := hruns ops
  cases unserved with
  | nil => rwa [hsplit, List.append_nil]
  | cons op rest =>
      -- two entries are far from all that an index can hold
      have hcapacity : indexLimit < 2 := (hrest op rest rfl).2.1
      exact absurd (two_pow_lt_indexLimit.trans hcapacity) (by decide)

end RecencyCache

end LinearProbing
