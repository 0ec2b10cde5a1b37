import LinearProbing.Proofs.AssociativeCache.Refinement
import Mathlib.Tactic.Abel

/-!
# LinearProbing.Proofs.AssociativeCache.Conservation

**A set-associative cache loses no value.** Every value that it ever took in is, at every moment, in
exactly one place: under its key, with the callback that disposes of values, or with the caller, who
removed it.

What an operation moves is read off the lists of the sets. Some entries stay, some come in and some go
out (`Exchanges`); the values of those that come in are the ones that were given to the cache, and the
values of those that go out are the ones that were disposed of or given back. Over a run this adds up.
-/

namespace LinearProbing

/-- Some entries stay, some come in and some go out. -/
def Exchanges {ε : Type} (before after came gone : List ε) : Prop :=
  ∃ kept : List ε, before.Perm (gone ++ kept) ∧ after.Perm (came ++ kept)

theorem exchanges_rfl {ε : Type} (l : List ε) : Exchanges l l [] [] := ⟨l, .refl l, .refl l⟩

/-- What was there and what came in is what is there and what went out. -/
theorem Exchanges.balance {ε α : Type} {before after came gone : List ε}
    (h : Exchanges before after came gone) (f : ε → α) :
    (before.map f : Multiset α) + came.map f = after.map f + gone.map f := by
  obtain ⟨kept, hbefore, hafter⟩ := h
  have hb : (before.map f : Multiset α) = gone.map f + kept.map f := by
    rw [Multiset.coe_add, ← List.map_append]
    exact Multiset.coe_eq_coe.mpr (hbefore.map f)
  have ha : (after.map f : Multiset α) = came.map f + kept.map f := by
    rw [Multiset.coe_add, ← List.map_append]
    exact Multiset.coe_eq_coe.mpr (hafter.map f)
  rw [hb, ha]
  abel

namespace DisposingCall

variable {τ κ ν α : Type} (c : DisposingCall τ κ ν α)

@[simp] theorem disposed_makingFirst : c.makingFirst.disposed = c.disposed := by
  simp [Call.disposed, makingFirst, List.filterMap_map, Function.comp_def,
    CacheInvocation.disposed?]

@[simp] theorem filterMap_made?_makingFirst (f : κ → Reply (Option ν)) :
    c.makingFirst.calls.filterMap (CacheInvocation.made? f) =
      c.calls.filterMap fun k => (f k).made? := by
  simp [makingFirst, List.filterMap_map, Function.comp_def, CacheInvocation.made?]

end DisposingCall

/-- Nothing is disposed of while entries are shown. -/
theorem Call.disposed_forEach {τ κ ν : Type} (f : κ × ν → Reply Unit) (s : τ) (l : List (κ × ν)) :
    ((Call.forEach f s l).mapCalls fun e => CacheInvocation.shows e.1 e.2).disposed = [] := by
  simp [Call.disposed, Call.mapCalls, List.filterMap_map, Function.comp_def, CacheInvocation.disposed?]

namespace AssociativeCache.Operation

variable {τ κ ν ε : Type}

/-- The values that an operation gave to the cache: the argument, or what the function has made. -/
def stored (op : Operation κ ν) (c : Call τ (CacheInvocation κ ν) (CacheAnswer ε ν)) : List ν :=
  match op with
  | insert _ value => [value]
  | computeIfAbsent _ f => c.calls.filterMap (CacheInvocation.made? f)
  | _ => []

/-- The value that an operation took out of the cache to give it back. -/
def returned (op : Operation κ ν) (c : Call τ (CacheInvocation κ ν) (CacheAnswer ε ν)) : List ν :=
  match op, c.result with
  | erase _, .ok (.value? old) => old.toList
  | _, _ => []

end AssociativeCache.Operation

namespace AssociativeCache

variable {τ κ ν ε : Type}

/-- The values under the keys of a cache. -/
def values (c : AssociativeCache κ ν) : List ν := c.entries.map Prod.snd

/-- The values that the operations of a run gave to the cache. -/
def storedIn (ops : List (Operation κ ν))
    (calls : List (Call τ (CacheInvocation κ ν) (CacheAnswer ε ν))) : List ν :=
  (List.zipWith Operation.stored ops calls).flatten

/-- The values that the operations of a run gave back. -/
def returnedIn (ops : List (Operation κ ν))
    (calls : List (Call τ (CacheInvocation κ ν) (CacheAnswer ε ν))) : List ν :=
  (List.zipWith Operation.returned ops calls).flatten

/-- The values that a run handed to the callback that disposes of them. -/
def disposedIn (calls : List (Call τ (CacheInvocation κ ν) (CacheAnswer ε ν))) : List ν :=
  calls.flatMap Call.disposed

end AssociativeCache

/-! ### Moves between the lists -/

namespace FifoSets

variable {κ ν : Type} [SignedWord κ] {m : FifoSets κ ν} {key : κ} {value old : ν}
  {l : List (Resident κ ν)}

/-- What another list in the place of a set moves. -/
theorem exchanges_withMembers (h : m.Valid) {came gone : List (κ × ν)} (stay : List (κ × ν))
    (hbefore : ((m.members key).map Resident.entry).Perm (gone ++ stay))
    (hafter : (l.map Resident.entry).Perm (came ++ stay)) :
    Exchanges m.entries (m.withMembers key l).entries came gone := by
  obtain ⟨others, hothers⟩ := exists_others h key
  have hm := hothers (m.members key)
  rw [withMembers_members] at hm
  refine ⟨stay ++ others, ?_, ?_⟩
  · rw [← List.append_assoc]
    exact hm.trans (hbefore.append_right others)
  · rw [← List.append_assoc]
    exact (hothers l).trans (hafter.append_right others)

/-- The entry of a key among the others of its set. -/
theorem exists_split (h : m.Valid) (hget : m.get? key = some old) :
    ∃ (older newer : List (Resident κ ν)) (r : Resident κ ν),
      m.members key = newer ++ r :: older ∧ r.key = key ∧ r.value = old ∧
        (∀ x ∈ newer, x.key ≠ key) ∧ ∀ x ∈ older, x.key ≠ key := by
  obtain ⟨r, hfind, hvalue⟩ := Option.map_eq_some_iff.mp hget
  obtain ⟨hkey, newer, older, hsplit, hnewer⟩ := List.find?_eq_some_iff_append.mp hfind
  have hdistinct : ((m.members key).map Resident.key).Nodup := h.distinct _
  rw [hsplit, List.map_append, List.map_cons] at hdistinct
  have hkey : r.key = key := by simpa using hkey
  refine ⟨older, newer, r, hsplit, hkey, hvalue, fun x hx => by simpa using hnewer x hx, ?_⟩
  intro x hx hsame
  have hnodup := (List.nodup_append.mp hdistinct).2.1
  refine (List.nodup_cons.mp hnodup).1 ?_
  rw [hkey, ← hsame]
  exact List.mem_map_of_mem hx

/-- A new key comes in, and at most one entry goes out, to be disposed of. -/
theorem exchanges_takeIn (h : m.Valid) (key : κ) (value : ν) :
    ∃ gone : List (κ × ν), gone.length ≤ 1 ∧ (m.takeIn key value).disposed = gone.map Prod.snd ∧
      Exchanges m.entries (m.takeIn key value).state.entries [(key, value)] gone := by
  have hm : Valid { m with admitted := m.admitted + 1 } :=
    { h with born_lt := fun j r hr => Nat.lt_succ_of_lt (h.born_lt j r hr) }
  by_cases hfull : (m.members key).length = m.setSize
  · -- a full set has an oldest resident, since a set has at least one slot
    have hne : m.members key ≠ [] := by
      rintro hnil
      have hpos := h.setSize_pos
      rw [hnil, List.length_nil] at hfull
      omega
    rw [takeIn_of_full hfull, List.getLast?_eq_some_getLast hne]
    refine ⟨[((m.members key).getLast hne).entry], Nat.le_refl 1, rfl, ?_⟩
    refine exchanges_withMembers hm ((m.members key).dropLast.map Resident.entry) ?_ (.refl _)
    have hsplit := congrArg (List.map Resident.entry) (List.dropLast_concat_getLast hne)
    rw [List.map_append] at hsplit
    exact hsplit ▸ List.perm_append_comm
  · rw [takeIn_of_room hfull]
    exact ⟨[], Nat.zero_le 1, rfl, exchanges_withMembers hm _ (.refl _) (.refl _)⟩

theorem exchanges_insert_of_present (h : m.Valid) (hget : m.get? key = some old) (value : ν) :
    Exchanges m.entries (m.insert key value).state.entries [(key, value)] [(key, old)] := by
  have hm : Valid { m with puts := m.puts + 1 } := { h with }
  obtain ⟨older, newer, r, hsplit, rfl, rfl, hnewer, holder⟩ := exists_split h hget
  -- no other resident of the set has the key, so replacing rewrites this one only
  have hother : ∀ l : List (Resident κ ν), (∀ x ∈ l, x.key ≠ r.key) →
      l.map (Resident.replace r.key value) = l :=
    fun l hl => (List.map_congr_left fun x hx => if_neg (hl x hx)).trans l.map_id
  rw [insert_of_present hget]
  refine exchanges_withMembers hm ((newer ++ older).map Resident.entry) ?_ ?_
  · change ((m.members r.key).map _).Perm _
    rw [hsplit]
    exact List.perm_middle.map Resident.entry
  · have hreplaced : (m.members r.key).map (Resident.replace r.key value) =
        newer ++ { r with value } :: older := by
      rw [hsplit, List.map_append, List.map_cons, hother newer hnewer, hother older holder]
      exact congrArg (newer ++ · :: older) (if_pos rfl)
    change (List.map _ ((m.members r.key).map _)).Perm _
    rw [hreplaced]
    exact List.perm_middle.map Resident.entry

/-- At most one entry goes out for an entry that is stored, and it is disposed of. -/
theorem exchanges_insert (h : m.Valid) (key : κ) (value : ν) :
    ∃ gone : List (κ × ν), gone.length ≤ 1 ∧ (m.insert key value).disposed = gone.map Prod.snd ∧
      Exchanges m.entries (m.insert key value).state.entries [(key, value)] gone := by
  cases hget : m.get? key with
  | none =>
      rw [insert_of_absent hget]
      exact exchanges_takeIn (m := { m with puts := m.puts + 1 }) { h with } key value
  | some old =>
      refine ⟨[(key, old)], Nat.le_refl 1, ?_, exchanges_insert_of_present h hget value⟩
      rw [insert_of_present hget]
      rfl

theorem exchanges_erase (h : m.Valid) (key : κ) :
    Exchanges m.entries (m.erase key).2.entries [] ((m.get? key).toList.map (key, ·)) := by
  cases hget : m.get? key with
  | none =>
      have hnone : (m.members key).eraseP (·.key = key) = m.members key :=
        List.eraseP_of_forall_not fun r hr => by simpa using get?_eq_none_iff.mp hget r hr
      rw [FifoSets.erase, hnone, withMembers_members]
      exact exchanges_rfl _
  | some old =>
      -- the first resident with the key goes, and there is no second one
      obtain ⟨older, newer, r, hsplit, rfl, rfl, hnewer, -⟩ := exists_split h hget
      have herased : (m.members r.key).eraseP (·.key = r.key) = newer ++ older := by
        rw [hsplit, List.eraseP_append_right _ fun x hx => by simpa using hnewer x hx,
          List.eraseP_cons_of_pos (by simp)]
      refine exchanges_withMembers h ((newer ++ older).map Resident.entry) ?_ ?_
      · rw [hsplit]
        exact List.perm_middle.map Resident.entry
      · rw [herased]
        exact .refl _

theorem exchanges_computeIfAbsent_of_made (h : m.Valid) (habsent : m.get? key = none)
    {f : κ → Reply (Option ν)} (hf : f key = .answers (some value)) :
    ∃ gone : List (κ × ν), gone.length ≤ 1 ∧
      (m.computeIfAbsent key f).disposed = gone.map Prod.snd ∧
      Exchanges m.entries (m.computeIfAbsent key f).state.entries [(key, value)] gone := by
  simp only [FifoSets.computeIfAbsent, habsent, hf]
  exact exchanges_takeIn (m := { m with misses := m.misses + 1, puts := m.puts + 1 }) { h with } key
    value

/-- A present value is answered, or a new one comes in that the function has made. -/
theorem exchanges_computeIfAbsent (h : m.Valid) (key : κ) (f : κ → Reply (Option ν)) :
    ∃ came gone : List (κ × ν),
      (m.computeIfAbsent key f).calls.filterMap (fun k => (f k).made?) = came.map Prod.snd ∧
      (m.computeIfAbsent key f).disposed = gone.map Prod.snd ∧
      Exchanges m.entries (m.computeIfAbsent key f).state.entries came gone := by
  cases hget : m.get? key with
  | some value =>
      simp only [FifoSets.computeIfAbsent, hget]
      exact ⟨[], [], rfl, rfl, exchanges_rfl _⟩
  | none =>
      -- a miss asks for exactly one value, which may not be made
      have hasked : (m.computeIfAbsent key f).calls.filterMap (fun k => (f k).made?) =
          (f key).made?.toList := by
        have hcalls : (m.computeIfAbsent key f).calls = [key] := by
          simp only [FifoSets.computeIfAbsent, hget]
          rcases f key with (_ | value) | _ <;> rfl
        rw [hcalls, List.filterMap_cons, List.filterMap_nil]
        cases (f key).made? <;> rfl
      rw [hasked]
      cases hf : f key with
      | panics =>
          simp only [FifoSets.computeIfAbsent, hget, hf]
          exact ⟨[], [], rfl, rfl, exchanges_rfl _⟩
      | answers made =>
          cases made with
          | none =>
              simp only [FifoSets.computeIfAbsent, hget, hf]
              exact ⟨[], [], rfl, rfl, exchanges_rfl _⟩
          | some value =>
              obtain ⟨gone, -, hdisposed, hmoved⟩ := exchanges_computeIfAbsent_of_made h hget hf
              exact ⟨[(key, value)], gone, rfl, hdisposed, hmoved⟩

omit [SignedWord κ] in
theorem entries_clear : m.clear.state.entries = [] := by
  rw [FifoSets.entries, List.flatMap_eq_nil_iff]
  exact fun _ _ => rfl

end FifoSets

namespace AssociativeCache

variable {κ ν : Type} [SignedWord κ] {c : AssociativeCache κ ν} {m : FifoSets κ ν} {key : κ}
  {value : ν}

/-! ### What an operation moves -/

/-- **What an operation moves**: what is stored comes in, and what goes out is disposed of or given
back. -/
theorem Operation.exchanges_specify [BEq ν] (h : m.Valid) (op : Operation κ ν) :
    ∃ came gone : List (κ × ν), Exchanges m.entries (op.specify m).state.entries came gone ∧
      op.stored (op.specify m) = came.map Prod.snd ∧
      (op.specify m).disposed ++ op.returned (op.specify m) = gone.map Prod.snd := by
  -- what came is what was stored; what has gone was disposed of, or returned by a removal
  cases op with
  | insert key value =>
      obtain ⟨gone, -, hdisposed, hmoved⟩ := FifoSets.exchanges_insert h key value
      refine ⟨[(key, value)], gone, hmoved, rfl, (List.append_nil _).trans ?_⟩
      exact (DisposingCall.disposed_makingFirst _).trans hdisposed
  | computeIfAbsent key f =>
      obtain ⟨came, gone, hmade, hdisposed, hmoved⟩ := FifoSets.exchanges_computeIfAbsent h key f
      refine ⟨came, gone, hmoved, ?_, (List.append_nil _).trans ?_⟩
      · exact (DisposingCall.filterMap_made?_makingFirst _ f).trans hmade
      · exact (DisposingCall.disposed_makingFirst _).trans hdisposed
  | erase key =>
      refine ⟨[], (m.get? key).toList.map (key, ·), FifoSets.exchanges_erase h key, rfl, ?_⟩
      change (m.get? key).toList = _
      rw [List.map_map, show Prod.snd ∘ ((key, ·) : ν → κ × ν) = id from rfl, List.map_id]
  | clear =>
      refine ⟨[], m.entries, ⟨[], ?_, ?_⟩, rfl, (List.append_nil _).trans ?_⟩
      · rw [List.append_nil]
      · exact .of_eq FifoSets.entries_clear
      · exact DisposingCall.disposed_makingFirst _
  | get key =>
      have hsame : ((get key).specify m).state.entries = m.entries := by
        cases hget : m.get? key <;> simp only [specify, FifoSets.get, hget] <;> rfl
      refine ⟨[], [], ?_, rfl, rfl⟩
      rw [hsame]
      exact exchanges_rfl _
  | forEach f =>
      refine ⟨[], [], ?_, rfl, (List.append_nil _).trans (Call.disposed_forEach ..)⟩
      rw [state_specify_forEach]
      exact exchanges_rfl _
  | _ => exact ⟨[], [], exchanges_rfl _, rfl, rfl⟩

theorem Represents.disposed_perform [BEq ν] (h : c.Represents m) (op : Operation κ ν) :
    (op.perform c).disposed = (op.specify m).disposed :=
  congrArg (List.filterMap CacheInvocation.disposed?) (h.mirrors op).calls

theorem Represents.exchanges_perform [BEq ν] (h : c.Represents m) {op : Operation κ ν}
    {came gone : List (κ × ν)} (hmoved : Exchanges m.entries (op.specify m).state.entries came gone) :
    Exchanges c.entries (op.perform c).state.entries came gone := by
  rwa [h.entries_eq, (h.mirrors op).state.entries_eq]

theorem Represents.balance [BEq ν] (h : c.Represents m) (op : Operation κ ν) :
    (c.values : Multiset ν) + op.stored (op.perform c) =
      (op.perform c).state.values + (op.perform c).disposed + op.returned (op.perform c) := by
  have hsame := h.mirrors op
  have hstored : op.stored (op.perform c) = op.stored (op.specify m) := by
    cases op <;> simp [Operation.stored, hsame.calls]
  have hreturned : op.returned (op.perform c) = op.returned (op.specify m) := by
    cases op <;> simp [Operation.returned, hsame.result]
  obtain ⟨came, gone, hmoved, hin, hout⟩ := op.exchanges_specify h.valid
  rw [hstored, hreturned, h.disposed_perform, hin, add_assoc,
    Multiset.coe_add (op.specify m).disposed, hout]
  exact (h.exchanges_perform hmoved).balance Prod.snd

theorem Represents.get_fst (h : c.Represents m) (key : κ) : (c.get key).1 = m.get? key := by
  rw [(h.get key).1, FifoSets.get]
  cases m.get? key <;> rfl

/-- An operation that stores a value under a key if the key is absent. -/
inductive Operation.Stores (key : κ) (value : ν) : Operation κ ν → Prop
  | insert : Stores key value (.insert key value)
  | computeIfAbsent {f : κ → Reply (Option ν)} (made : f key = .answers (some value)) :
      Stores key value (.computeIfAbsent key f)

/-- A value leaves a cache once: to be disposed of, or to be given back. -/
structure LeavesOnce [BEq ν] (c : AssociativeCache κ ν) : Prop where
  replaced : ∀ key value old, (c.get key).1 = some old →
    ((Operation.insert key value).perform c).disposed = [old] ∧
      Exchanges c.entries ((Operation.insert key value).perform c).state.entries [(key, value)]
        [(key, old)]
  displaced : ∀ key value, (c.get key).1 = none → ∀ op, Operation.Stores key value op →
    ∃ gone : List (κ × ν), gone.length ≤ 1 ∧ (op.perform c).disposed = gone.map Prod.snd ∧
      Exchanges c.entries (op.perform c).state.entries [(key, value)] gone
  /-- What is removed is given back, and nothing is disposed of. -/
  removed : ∀ key, ((Operation.erase key).perform c).result = .ok (.value? (c.get key).1) ∧
    ((Operation.erase key).perform c).calls = [] ∧
    Exchanges c.entries ((Operation.erase key).perform c).state.entries []
      ((c.get key).1.toList.map (key, ·))
  cleared : ((Operation.clear : Operation κ ν).perform c).disposed = c.values ∧
    ((Operation.clear : Operation κ ν).perform c).state.entries = []

theorem Represents.leavesOnce [BEq ν] (h : c.Represents m) : LeavesOnce c where
  replaced key value old hget := by
    rw [h.get_fst] at hget
    refine ⟨?_, h.exchanges_perform (FifoSets.exchanges_insert_of_present h.valid hget value)⟩
    rw [h.disposed_perform]
    refine (DisposingCall.disposed_makingFirst _).trans ?_
    exact congrArg Disposal.disposed (FifoSets.insert_of_present hget)
  displaced key value habsent op hop := by
    rw [h.get_fst] at habsent
    -- either way of admitting a value displaces at most one
    have hspecified : ∃ gone : List (κ × ν), gone.length ≤ 1 ∧
        (op.specify m).disposed = gone.map Prod.snd ∧
        Exchanges m.entries (op.specify m).state.entries [(key, value)] gone := by
      cases hop with
      | insert =>
          obtain ⟨gone, hlength, hdisposed, hmoved⟩ := FifoSets.exchanges_insert h.valid key value
          exact ⟨gone, hlength, (DisposingCall.disposed_makingFirst _).trans hdisposed, hmoved⟩
      | computeIfAbsent made =>
          obtain ⟨gone, hlength, hdisposed, hmoved⟩ :=
            FifoSets.exchanges_computeIfAbsent_of_made h.valid habsent made
          exact ⟨gone, hlength, (DisposingCall.disposed_makingFirst _).trans hdisposed, hmoved⟩
    obtain ⟨gone, hlength, hdisposed, hmoved⟩ := hspecified
    exact ⟨gone, hlength, (h.disposed_perform op).trans hdisposed, h.exchanges_perform hmoved⟩
  removed key := by
    rw [h.get_fst]
    refine ⟨?_, rfl, h.exchanges_perform (FifoSets.exchanges_erase h.valid key)⟩
    exact congrArg (fun old => Except.ok (CacheAnswer.value? old)) (h.erase key).1
  cleared := by
    constructor
    · exact DisposingCall.disposed_makingFirst _
    · exact h.clear.state.entries_eq.trans FifoSets.entries_clear

/-! ### Every run -/

/-- What was there and what was stored is what is there, what was disposed of and what was given
back. -/
theorem Represents.balance_trace [BEq ν] (h : c.Represents m) (ops : List (Operation κ ν)) :
    (c.values : Multiset ν) + storedIn ops (trace Operation.perform ops c) =
      (finalState Operation.perform ops c).values + disposedIn (trace Operation.perform ops c) +
        returnedIn ops (trace Operation.perform ops c) := by
  induction ops generalizing c m with
  | nil => simp [trace, finalState, storedIn, disposedIn, returnedIn]
  | cons op rest ih =>
      have hfirst := h.balance op
      have hrest := ih (h.mirrors op).state
      simp only [trace, finalState, storedIn, disposedIn, returnedIn, List.zipWith_cons_cons,
        List.flatten_cons, List.flatMap_cons, ← Multiset.coe_add] at hrest ⊢
      generalize (op.perform c).state = c' at hfirst hrest ⊢
      -- one step balances by itself, the steps after it by the induction
      calc (c.values : Multiset ν) + (op.stored (op.perform c) + _)
          = (c.values + op.stored (op.perform c)) + storedIn rest (trace Operation.perform rest c') :=
            (add_assoc _ _ _).symm
        _ = (c'.values + storedIn rest (trace Operation.perform rest c')) +
              ((op.perform c).disposed + op.returned (op.perform c)) := by
            rw [hfirst]
            abel
        _ = _ := by
            rw [storedIn, hrest]
            abel

/-- What the operations of a run that only stores give to the cache and take from it. -/
theorem stores_of_forall_insert {ops : List (Operation κ ν)} [BEq ν]
    (hops : ∀ op ∈ ops, ∃ key value, op = .insert key value) (c : AssociativeCache κ ν) :
    (storedIn ops (trace Operation.perform ops c)).length = ops.length ∧
      returnedIn ops (trace Operation.perform ops c) = [] := by
  induction ops generalizing c with
  | nil => exact ⟨rfl, rfl⟩
  | cons op rest ih =>
      obtain ⟨⟨key, value, rfl⟩, hrest⟩ := List.forall_mem_cons.mp hops
      obtain ⟨hstored, hreturned⟩ := ih hrest ((Operation.insert key value).perform c).state
      exact ⟨congrArg (· + 1) hstored, hreturned⟩

/-- A cache that was new before a run accounts for every value. -/
structure AccountsForValues {κ ν : Type} [SignedWord κ] [BEq ν] (ops : List (Operation κ ν))
    (new : AssociativeCache κ ν) : Prop where
  /-- The values that were stored are the live ones, those disposed of and those given back. -/
  conserved : (storedIn ops (trace Operation.perform ops new) : Multiset ν) =
    (finalState Operation.perform ops new).values +
      disposedIn (trace Operation.perform ops new) + returnedIn ops (trace Operation.perform ops new)
  leavesOnce : LeavesOnce (finalState Operation.perform ops new)
  len_add_length : (∀ op ∈ ops, ∃ key value, op = .insert key value) →
    (finalState Operation.perform ops new).len +
      (disposedIn (trace Operation.perform ops new)).length = ops.length

/-- **Every value given to a set-associative cache is accounted for exactly once.** -/
theorem run_accounts_for_values {κ ν : Type} [SignedWord κ] [BEq ν] {sets ways : Nat}
    {c : AssociativeCache κ ν} (hc : ofDimensions sets ways = .ok c) (ops : List (Operation κ ν)) :
    AccountsForValues ops c := by
  obtain ⟨-, -, hnew⟩ := represents_of_ofDimensions hc
  obtain ⟨-, hreached⟩ := forall₂_mirrors (fun op _ _ h => h.mirrors op) ops hnew
  have hempty : c.values = [] := by
    rw [values, hnew.entries_eq, List.map_eq_nil_iff, FifoSets.entries, List.flatMap_eq_nil_iff]
    exact fun _ _ => rfl
  have hconserved := hnew.balance_trace ops
  rw [hempty, Multiset.coe_nil, zero_add] at hconserved
  refine ⟨hconserved, hreached.leavesOnce, fun hops => ?_⟩
  obtain ⟨hstored, hreturned⟩ := stores_of_forall_insert hops c
  have hcard := congrArg Multiset.card hconserved
  rw [hreturned, Multiset.coe_nil, add_zero, Multiset.card_add, Multiset.coe_card, Multiset.coe_card,
    Multiset.coe_card, hstored, values, List.length_map] at hcard
  rw [hcard, hreached.entries_eq, hreached.len, FifoSets.length_entries]

/-- A run in which values are replaced, displaced, removed and cleared, and functions of the owner make
one, make none and panic. -/
theorem run_accounts_for_values_evicting :
    let new : AssociativeCache Int32 Nat :=
      { slots := Array.replicate 4 ⟨0, none⟩, numSets := 2, setSize := 2, len := 0
        hits := 0, misses := 0, puts := 0 }
    let ops : List (Operation Int32 Nat) :=
      [.insert 1 10, .insert 2 20, .insert 1 11, .insert 5 50, .get 2, .insert 6 60, .erase 6,
        .computeIfAbsent 8 fun _ => .panics, .computeIfAbsent 8 fun _ => .answers none,
        .computeIfAbsent 7 fun _ => .answers (some 70), .insert 3 30, .clear, .insert 1 12]
    ofDimensions 2 2 = .ok new ∧
      storedIn ops (trace Operation.perform ops new) = [10, 20, 11, 50, 60, 70, 30, 12] ∧
      (finalState Operation.perform ops new).values = [12] ∧
      disposedIn (trace Operation.perform ops new) = [10, 11, 20, 50, 30, 70] ∧
      returnedIn ops (trace Operation.perform ops new) = [60] ∧
      AccountsForValues ops new := by
  intro new ops
  have hnew : ofDimensions 2 2 = .ok new := rfl
  exact ⟨hnew, by decide +kernel, by decide +kernel, by decide +kernel, by decide +kernel,
    run_accounts_for_values hnew ops⟩

end AssociativeCache

end LinearProbing
