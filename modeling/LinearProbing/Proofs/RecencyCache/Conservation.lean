import LinearProbing.Proofs.RecencyCache.Refinement
import Mathlib.Data.Multiset.Count
import Mathlib.Tactic.Abel

/-!
# LinearProbing.Proofs.RecencyCache.Conservation

**A cache of recently used values closes each value once.** Every value that the factory has built is, at
every moment, either held or closed, and dropping the cache closes the rest.

This does not depend on the order of use: links are rewritten and handles are used again, but a node keeps its
value until it is taken out of the store, and then the value is closed. So the balance holds of every cache,
also of one whose list is broken (`Operation.balance`). The list is needed for one thing, that a full cache
makes room.
-/

namespace LinearProbing

namespace DisposingCall

variable {τ κ ν α : Type} (c : DisposingCall τ κ ν α)

@[simp] theorem disposed_disposingFirst : c.disposingFirst.disposed = c.disposed := by
  simp [Call.disposed, disposingFirst, List.filterMap_map, Function.comp_def,
    CacheInvocation.disposed?]

@[simp] theorem filterMap_made?_disposingFirst (f : κ → Reply (Option ν)) :
    c.disposingFirst.calls.filterMap (CacheInvocation.made? f) =
      c.calls.filterMap fun k => (f k).made? := by
  simp [disposingFirst, List.filterMap_map, Function.comp_def, CacheInvocation.made?]

end DisposingCall

namespace RecencyCache

variable {κ ν θ : Type} {ρ : Type → Type}

section Values

variable {τ ε : Type}

/-- The values that a cache holds. -/
def values [HandleStore ρ θ] (c : RecencyCache κ ν ρ θ) : List ν :=
  (HandleStore.entries c.nodes).map fun e => e.2.value

/-- The values that the factory of an operation has built. -/
def Operation.built (op : Operation κ ν) (c : Call τ (CacheInvocation κ ν) (CacheAnswer ε ν)) : List ν :=
  match op with
  | lookup _ factory => c.calls.filterMap (CacheInvocation.made? fun key => (factory key).map some)
  | _ => []

/-- The values that were built in a run. -/
def builtIn (ops : List (Operation κ ν)) (calls : List (Call τ (CacheInvocation κ ν) (CacheAnswer ε ν))) :
    List ν :=
  (List.zipWith Operation.built ops calls).flatten

/-- The values that were closed in a run. -/
def closedIn (calls : List (Call τ (CacheInvocation κ ν) (CacheAnswer ε ν))) : List ν :=
  calls.flatMap Call.disposed

end Values

/-! ### What becomes of the values in the store -/

section Store

variable [HandleStore ρ θ] [LawfulHandleStore ρ θ] {c : RecencyCache κ ν ρ θ} {handle : θ} {value : ν}

theorem mem_values_of_node? {node : RecencyNode κ ν θ} (h : c.node? handle = some node) :
    node.value ∈ c.values :=
  List.mem_map_of_mem (f := fun e : θ × RecencyNode κ ν θ => e.2.value)
    (LawfulHandleStore.mem_entries.mpr h)

theorem values_modifyNode (c : RecencyCache κ ν ρ θ) (handle : θ)
    (f : RecencyNode κ ν θ → RecencyNode κ ν θ) (hf : ∀ node, (f node).value = node.value) :
    (c.modifyNode handle f).values.Perm c.values := by
  unfold modifyNode
  split
  · exact .refl _
  · next node hnode =>
    have hafter := (HandleStore.entries_set_perm hnode (f node)).map fun e => e.2.value
    have hbefore := (HandleStore.entries_perm_cons hnode).map fun e => e.2.value
    rw [List.map_cons, hf] at hafter
    exact hafter.trans hbefore.symm

theorem values_setOlder (c : RecencyCache κ ν ρ θ) (newer older : Option θ) :
    (c.setOlder newer older).values.Perm c.values := by
  unfold setOlder
  split
  · exact values_modifyNode c _ ({ · with older }) fun _ => rfl
  · exact .refl _

theorem values_setNewer (c : RecencyCache κ ν ρ θ) (older newer : Option θ) :
    (c.setNewer older newer).values.Perm c.values := by
  unfold setNewer
  split
  · exact values_modifyNode c _ ({ · with newer }) fun _ => rfl
  · exact .refl _

/-- **Changing links leaves the values.** -/
theorem values_unlink (c : RecencyCache κ ν ρ θ) (handle : θ) :
    (c.unlink handle).values.Perm c.values := by
  unfold unlink
  split
  · exact .refl _
  · have hmodified := values_modifyNode c handle ({ · with newer := none, older := none }) fun _ => rfl
    exact (values_setNewer ..).trans ((values_setOlder ..).trans hmodified)

theorem values_pushFront (c : RecencyCache κ ν ρ θ) (handle : θ) :
    (c.pushFront handle).values.Perm c.values := by
  have hmodified := values_modifyNode c handle ({ · with newer := none, older := c.head }) fun _ => rfl
  exact (values_setNewer _ c.head (some handle)).trans hmodified

theorem values_touch (c : RecencyCache κ ν ρ θ) (handle : θ) : (c.touch handle).state.values.Perm c.values :=
  values_pushFront ..

/-- A value that is given is held. -/
theorem mem_values_of_touch (h : (c.touch handle).result = .ok (some value)) :
    value ∈ (c.touch handle).state.values := by
  obtain ⟨node, hnode, rfl⟩ := Option.map_eq_some_iff.mp (Except.ok.inj h)
  exact mem_values_of_node? hnode

variable [SignedWord κ]

/-- A value that makes room is no longer held. -/
theorem values_evict (c : RecencyCache κ ν ρ θ) :
    c.values.Perm (c.evict.disposed ++ c.evict.state.values) := by
  unfold evict
  split
  · exact .refl _
  · next last _ =>
    dsimp only
    split
    · exact (values_unlink c last).symm
    · next node hnode =>
      have herased := (HandleStore.entries_perm_cons hnode).map fun e => e.2.value
      exact (values_unlink c last).symm.trans herased

theorem values_makeRoom (c : RecencyCache κ ν ρ θ) :
    c.values.Perm (c.makeRoom.disposed ++ c.makeRoom.state.values) := by
  unfold makeRoom
  split
  · exact c.values_evict
  · exact .refl _

/-- A new value is held, also if the index could not take its key. -/
theorem values_addNode (c : RecencyCache κ ν ρ θ) (key : κ) (value : ν) :
    ((c.addNode key value).andThen touch).state.values.Perm (value :: c.values) := by
  have hadded : (c.addNode key value).state.values.Perm (value :: c.values) := by
    have hentries := HandleStore.entries_insert_perm c.nodes
      ({ key, value, newer := none, older := none } : RecencyNode κ ν θ)
    exact hentries.map fun e => e.2.value
  unfold Change.andThen
  split
  · exact hadded
  · exact (values_touch ..).trans hadded

theorem mem_values_of_addNode {key : κ} {built : ν}
    (h : ((c.addNode key built).andThen touch).result = .ok (some value)) :
    value ∈ ((c.addNode key built).andThen touch).state.values := by
  unfold Change.andThen at h ⊢
  split at h
  · cases h
  · exact mem_values_of_touch h

/-- **Nothing is held in a closed cache.** -/
theorem values_close (c : RecencyCache κ ν ρ θ) : c.close.state.values = [] := by
  change (HandleStore.entries (HandleStore.clear c.nodes)).map _ = []
  rw [HandleStore.entries_clear, List.map_nil]

/-! ### Operations -/

omit [LawfulHandleStore ρ θ] in
/-- To close a cache is to close what it holds. -/
theorem disposed_close (c : RecencyCache κ ν ρ θ) :
    ((Operation.close : Operation κ ν).perform c).disposed = c.values :=
  DisposingCall.disposed_disposingFirst (.ofDisposal c.close)

/-- What was held and what a lookup builds is what is held then and what it closes. -/
theorem balance_lookup (c : RecencyCache κ ν ρ θ) (key : κ) (factory : κ → Reply ν) :
    (c.values ++ (c.lookup key factory).calls.filterMap fun k => ((factory k).map some).made?).Perm
      ((c.lookup key factory).state.values ++ (c.lookup key factory).disposed) := by
  unfold lookup
  split
  · -- a hit only moves its node, so no value is built or closed
    next handle _ =>
    exact ((values_touch ..).trans (values_unlink ..)).symm.append_right []
  · -- a miss first makes room, which closes what it evicts; only then is the factory asked
    have hroom := c.values_makeRoom.trans List.perm_append_comm
    dsimp only [Call.run]
    cases hreply : factory key with
    | panics =>
        simp only [List.filterMap_cons, List.filterMap_nil, hreply, Reply.map, Reply.made?,
          List.append_nil, Change.fail]
        exact hroom
    | answers value =>
        have hadded := c.makeRoom.state.values_addNode key value
        simp only [List.filterMap_cons, List.filterMap_nil, hreply, Reply.map, Reply.made?]
        refine List.perm_append_comm.trans ?_
        exact ((hroom.cons value).trans (hadded.symm.append_right _))

/-- **The balance of an operation**: what was held and what is built is what is held then and what is
closed. -/
theorem Operation.balance (op : Operation κ ν) (c : RecencyCache κ ν ρ θ) :
    (c.values : Multiset ν) + op.built (op.perform c) =
      (op.perform c).state.values + (op.perform c).disposed := by
  rw [Multiset.coe_add, Multiset.coe_add, Multiset.coe_eq_coe]
  cases op with
  | lookup key factory =>
      -- the disposals that are put in front of the calls build nothing
      have hbuilt : ((lookup key factory).perform c).calls.filterMap
          (CacheInvocation.made? fun k => (factory k).map some) =
            (c.lookup key factory).calls.filterMap fun k => ((factory k).map some).made? :=
        DisposingCall.filterMap_made?_disposingFirst _ _
      have hclosed : ((lookup key factory).perform c).disposed = (c.lookup key factory).disposed :=
        DisposingCall.disposed_disposingFirst _
      rw [built, hbuilt, hclosed]
      exact c.balance_lookup key factory
  | contains | keys | len => exact .refl _
  | close =>
      have hbuilt : c.values ++ (close : Operation κ ν).built ((close : Operation κ ν).perform c) =
          c.values := List.append_nil _
      rw [c.disposed_close, hbuilt]
      exact .of_eq (congrArg (· ++ c.values) c.values_close).symm

/-- **A lookup gives a value that is held.** -/
theorem mem_values_of_lookup {key : κ} {factory : κ → Reply ν}
    (h : ((Operation.lookup key factory).perform c).result = .ok (.value? (some value))) :
    value ∈ ((Operation.lookup key factory).perform c).state.values := by
  have hresult : (c.lookup key factory).result = .ok (some value) := by
    change (c.lookup key factory).result.map _ = _ at h
    cases hlookup : (c.lookup key factory).result with
    | error failure => rw [hlookup] at h; cases h
    | ok value? =>
        rw [hlookup] at h
        injection h with h
        injection h with h
        rw [h]
  change value ∈ (c.lookup key factory).state.values
  unfold lookup at hresult ⊢
  split at hresult
  · -- a value that was there stays, and one that was built is stored before it is returned
    exact mem_values_of_touch hresult
  · dsimp only [Call.run] at hresult ⊢
    cases hreply : factory key with
    | panics => rw [hreply] at hresult; cases hresult
    | answers built =>
        rw [hreply] at hresult
        exact mem_values_of_addNode hresult

end Store

/-! ### Runs -/

section Runs

variable [SignedWord κ] [HandleStore ρ θ] [LawfulHandleStore ρ θ] {c : RecencyCache κ ν ρ θ}

/-- What was held and what was built is what is held and what was closed. -/
theorem balance_trace (ops : List (Operation κ ν)) (c : RecencyCache κ ν ρ θ) :
    (c.values : Multiset ν) + builtIn ops (trace Operation.perform ops c) =
      (finalState Operation.perform ops c).values + closedIn (trace Operation.perform ops c) := by
  induction ops generalizing c with
  | nil => simp [trace, finalState, builtIn, closedIn]
  | cons op rest ih =>
      have hfirst := op.balance c
      have hrest := ih (op.perform c).state
      simp only [trace, finalState, builtIn, closedIn, List.zipWith_cons_cons, List.flatten_cons,
        List.flatMap_cons, ← Multiset.coe_add] at hrest ⊢
      -- one step balances by itself, the steps after it by the induction; the terms only change sides
      calc (c.values : Multiset ν) + (op.built (op.perform c) + _)
          = (op.perform c).state.values + (op.perform c).disposed +
              builtIn rest (trace Operation.perform rest (op.perform c).state) := by
            rw [← hfirst, add_assoc]
            rfl
        _ = (op.perform c).state.values +
              builtIn rest (trace Operation.perform rest (op.perform c).state) +
                (op.perform c).disposed := by abel
        _ = _ := by
            rw [builtIn, hrest]
            abel

omit [SignedWord κ] in
theorem len_eq_length_values (c : RecencyCache κ ν ρ θ) : c.len = c.values.length := by
  rw [len, LawfulHandleStore.size_eq, values, List.length_map]

theorem Represents.values_eq_nil {m : RecencyList κ ν} (h : c.Represents m) (hm : m.entries = []) :
    c.values = [] := by
  obtain ⟨-, -, -, l, hholds, hentries⟩ := h
  obtain rfl := List.map_eq_nil_iff.mp (hentries.symm.trans hm)
  exact List.length_eq_zero_iff.mp (c.len_eq_length_values.symm.trans hholds.links.len_eq)

theorem Represents.len_le_capacity {m : RecencyList κ ν} (h : c.Represents m) : c.len ≤ m.capacity := by
  obtain ⟨-, -, hle, l, hholds, hentries⟩ := h
  rw [hentries, List.length_map] at hle
  exact hholds.links.len_eq.trans_le hle

end Runs

/-- A cache that was new before a run closes every value once. -/
structure ClosesEveryValue {κ ν θ : Type} {ρ : Type → Type} [SignedWord κ] [HandleStore ρ θ]
    (ops : List (Operation κ ν)) (new : RecencyCache κ ν ρ θ) : Prop where
  /-- The values that were built are those that were closed and those that are held. -/
  conserved : (builtIn ops (trace Operation.perform ops new) : Multiset ν) =
    closedIn (trace Operation.perform ops new) + (finalState Operation.perform ops new).values
  /-- To drop the cache is to close it. Then every value that was built has been closed, and nothing else. -/
  dropped : (closedIn (trace Operation.perform (ops ++ [.close]) new) : Multiset ν) =
      builtIn ops (trace Operation.perform ops new) ∧
    (finalState Operation.perform (ops ++ [.close]) new).values = []
  len_eq : (finalState Operation.perform ops new).len =
    (finalState Operation.perform ops new).values.length
  /-- No more values are held than the capacity allows, as long as the index can grow. -/
  len_le : NoOverflow (trace Operation.perform ops new) →
    (finalState Operation.perform ops new).len ≤ new.capacity
  /-- The index can grow for more than `2 ^ 61` calls. -/
  noOverflow : new.capacity ≤ indexLimit ∨ ops.length ≤ indexLimit →
    NoOverflow (trace Operation.perform ops new)
  /-- The value that a lookup at the end of a run gives was built once more than it was closed. So it was not
  closed at all, if no value is built twice. -/
  lookup : ∀ before key factory value, ops = before ++ [.lookup key factory] →
    ((Operation.lookup key factory).perform (finalState Operation.perform before new)).result =
        .ok (.value? (some value)) →
      value ::ₘ (closedIn (trace Operation.perform ops new) : Multiset ν) ≤
          builtIn ops (trace Operation.perform ops new) ∧
        ((builtIn ops (trace Operation.perform ops new)).Nodup →
          value ∉ closedIn (trace Operation.perform ops new))

/-- **Every value that the factory builds is closed once.** -/
theorem run_closes_every_value {κ ν θ : Type} {ρ : Type → Type} [SignedWord κ] [HandleStore ρ θ]
    [LawfulHandleStore ρ θ] {capacity : Nat} (hcapacity : 1 ≤ capacity) :
    ∃ new : RecencyCache κ ν ρ θ, ofCapacity capacity = .ok new ∧
      ∀ ops : List (Operation κ ν), ClosesEveryValue ops new := by
  obtain ⟨new, hnew⟩ := exists_ofCapacity (κ := κ) (ν := ν) (ρ := ρ) hcapacity
  have hrepresents := represents_of_ofCapacity hnew
  -- a new cache holds nothing, so all that the run built is closed or still held
  have hconserved : ∀ ops : List (Operation κ ν), (builtIn ops (trace Operation.perform ops new) :
      Multiset ν) = closedIn (trace Operation.perform ops new) +
        (finalState Operation.perform ops new).values := by
    intro ops
    have hbalance := balance_trace ops new
    rw [hrepresents.values_eq_nil rfl, Multiset.coe_nil, zero_add] at hbalance
    rw [hbalance, add_comm]
  refine ⟨new, hnew, fun ops =>
    { conserved := hconserved ops
      dropped := ?_
      len_eq := len_eq_length_values _
      len_le := fun hno => ?_
      noOverflow := fun hfits => ?_
      lookup := ?_ }⟩
  · -- a drop closes whatever the run has left in the cache
    have hlast : closedIn (trace Operation.perform [.close] (finalState Operation.perform ops new)) =
        (finalState Operation.perform ops new).values :=
      (List.append_nil _).trans (disposed_close _)
    have hclosed : closedIn (trace Operation.perform (ops ++ [.close]) new) =
        closedIn (trace Operation.perform ops new) ++ (finalState Operation.perform ops new).values := by
      rw [trace_append, closedIn, List.flatMap_append]
      exact congrArg (closedIn (trace Operation.perform ops new) ++ ·) hlast
    refine ⟨?_, ?_⟩
    · rw [hclosed, ← Multiset.coe_add, hconserved]
    · rw [finalState_append]
      exact values_close _
  · obtain ⟨m, hreached, hsame, -⟩ := hrepresents.exists_built ops hno
    exact hreached.len_le_capacity.trans_eq (hsame.trans hrepresents.capacity.symm)
  · refine hrepresents.noOverflow (hfits.imp (fun h => ?_) fun h => ?_)
    · exact hrepresents.capacity ▸ h
    · simpa using h
  · rintro before key factory value rfl hgiven
    -- a value just returned is held, and what is held is not closed: it is built once more often than it is
    -- closed
    have hheld : value ∈ (finalState Operation.perform (before ++ [.lookup key factory]) new).values := by
      rw [finalState_append]
      exact mem_values_of_lookup hgiven
    have hle : value ::ₘ (closedIn (trace Operation.perform (before ++ [.lookup key factory]) new) :
        Multiset ν) ≤ builtIn (before ++ [.lookup key factory])
          (trace Operation.perform (before ++ [.lookup key factory]) new) := by
      rw [hconserved, ← Multiset.singleton_add, add_comm]
      exact Multiset.add_le_add_left (Multiset.singleton_le.mpr hheld)
    refine ⟨hle, fun hnodup => ?_⟩
    have hdistinct := Multiset.nodup_of_le hle (Multiset.coe_nodup.mpr hnodup)
    exact (Multiset.nodup_cons.mp hdistinct).1

/-- A run in which a full cache makes room, once for a value that the factory then fails to build, and that
goes on after the cache was closed. -/
theorem run_closes_every_value_evicting :
    let new : RecencyCache Int32 Nat :=
      { capacity := 2, nodes := HandleStore.empty, index := .empty .nonNull {}, head := none, tail := none }
    let ops : List (Operation Int32 Nat) :=
      [.lookup 1 fun _ => .answers 10, .lookup 2 fun _ => .answers 20, .lookup 1 fun _ => .panics,
        .lookup 3 fun _ => .answers 30, .lookup 4 fun _ => .panics, .lookup 2 fun _ => .answers 21, .close,
        .lookup 4 fun _ => .answers 40]
    1 ≤ new.capacity ∧ ofCapacity new.capacity = .ok new ∧
      builtIn ops (trace Operation.perform ops new) = [10, 20, 30, 21, 40] ∧
      closedIn (trace Operation.perform ops new) = [20, 10, 21, 30] ∧
      (finalState Operation.perform ops new).values = [40] ∧
      closedIn (trace Operation.perform (ops ++ [.close]) new) = [20, 10, 21, 30, 40] ∧
      ClosesEveryValue ops new := by
  intro new ops
  have hpos : 1 ≤ new.capacity := by decide
  have hnew : ofCapacity new.capacity = .ok new := rfl
  obtain ⟨c, hc, hruns⟩ := run_closes_every_value (κ := Int32) (ν := Nat) (ρ := SlotStore) hpos
  obtain rfl : new = c := Except.ok.inj (hnew.symm.trans hc)
  exact ⟨hpos, hnew, by decide +kernel, by decide +kernel, by decide +kernel, by decide +kernel, hruns ops⟩

end RecencyCache

end LinearProbing
