import LinearProbing.Proofs.Invariant
import LinearProbing.Proofs.LawfulSlots

/-!
# LinearProbing.Proofs.ValueMap.Refinement

**A map to values that may be null refines a finite map** from keys to optional values. Whatever is done to a
new map, every call gives the result that it gives on the finite map, and runs the functions of the caller
with the same arguments; the number of entries is the same after every step.

Three things can be read off the finite map, and hold of the table:

* what a computation returns is what is stored under the key, also when the table has grown meanwhile
  (`ReturnsStored`);
* a null is an entry, but reads as no value (`FillsNull`);
* a map that refuses nulls holds none but copies of those of another map (`Represents.nullsUnder_of_run`).
-/

namespace LinearProbing

namespace ValueMap

/-! ### What runs of a map show -/

section Statements

variable {σ η κ ν γ : Type} [EntrySlot σ κ ν] [KeyHash η κ] [BEq κ]

/-- A call on a map does what a call on a finite map does. -/
structure Matches (c : OperationCall (ValueMap σ η κ ν) κ ν)
    (d : OperationCall (FiniteMap κ (Option ν)) κ ν) : Prop where
  result : c.result = d.result
  calls : c.calls = d.calls
  len : c.state.len = d.state.size
  distinct : d.state.Distinct
  entries : c.state.entries.Perm d.state.entries

/-- What a call returns is the value that is now stored under a key. -/
def Returns (key : κ) (c : Call (ValueMap σ η κ ν) γ (Option ν)) : Prop :=
  ∀ value, c.result = .ok value → c.state.get? key = value

/-- What computations return is what is stored, in the slot that they have found for it. -/
structure ReturnsStored (m : ValueMap σ η κ ν) : Prop where
  computeIfAbsent : ∀ (key : κ) (f : κ → Reply (Option ν)), Returns key (m.computeIfAbsent key f)
  computeIfPresent : ∀ (key : κ) (f : κ → ν → Reply (Option ν)), Returns key (m.computeIfPresent key f)
  compute : ∀ (key : κ) (f : κ → Option ν → Reply (Option ν)), Returns key (m.compute key f)
  merge : ∀ (key : κ) (value : ν) (f : ν → ν → Reply (Option ν)), Returns key (m.merge key value f)
  /-- The slot of a new entry is the one where its key is found, also when the table has grown. -/
  insertAt : ∀ {key : κ} {stored : Option ν} {i j : Nat}, m.locate key = .vacant i →
    (m.insertAt i (m.hashOf key) key stored).result = .ok j →
      (m.insertAt i (m.hashOf key) key stored).state.find? key = some j

/-- A null is an entry that reads as no value: it is filled by what stores a value under an absent key, and
passed over by what needs a value. -/
structure FillsNull (m : ValueMap σ η κ ν) (key : κ) : Prop where
  contains : m.contains key = true
  get? : m.get? key = none
  insertIfAbsent : ∀ value, (m.insertIfAbsent key value).result = .ok none ∧
    (m.insertIfAbsent key value).state.get? key = some value
  computeIfAbsent : ∀ {f : κ → Reply (Option ν)} {value : ν}, f key = .answers (some value) →
    (m.computeIfAbsent key f).calls = [key] ∧ (m.computeIfAbsent key f).result = .ok (some value) ∧
      (m.computeIfAbsent key f).state.get? key = some value
  /-- The function that would combine two values is not called. -/
  merge : ∀ (value : ν) (f : ν → ν → Reply (Option ν)), (m.merge key value f).calls = [] ∧
    (m.merge key value f).result = .ok (some value) ∧ (m.merge key value f).state.get? key = some value
  compute : ∀ f : κ → Option ν → Reply (Option ν), (m.compute key f).calls = [(key, none)]
  computeIfPresent : ∀ f : κ → ν → Reply (Option ν), m.computeIfPresent key f = .done m none

/-- Every null is under a key with a property. -/
def NullsUnder (P : κ → Prop) (m : ValueMap σ η κ ν) : Prop := ∀ e ∈ m.entries, e.2 = none → P e.1

/-- No entry is a null. -/
def NullFree (m : ValueMap σ η κ ν) : Prop := ∀ e ∈ m.entries, e.2 ≠ none

/-- One of the operations copies a map that has a null under a key. -/
def CopiesNull [BEq ν] (ops : List (Operation σ η κ ν)) (key : κ) : Prop :=
  ∃ other, .insertAll other ∈ ops ∧ ∃ e ∈ other.entries, (e.1 == key) = true ∧ e.2 = none

/-- The maps of one policy that a program can have: what a run leaves, if all that is copied in the course
of it comes from such maps. -/
inductive Attained [BEq ν] (lawful : η → Prop) (policy : NullPolicy) : ValueMap σ η κ ν → Prop where
  | run {hashing : η} {config : TableConfig} {m : ValueMap σ η κ ν} {ops : List (Operation σ η κ ν)}
      (hashing_lawful : lawful hashing) (new : ofConfig config policy hashing = .ok m)
      (copied : ∀ other, .insertAll other ∈ ops → Attained lawful policy other)
      (noOverflow : NoOverflow (trace Operation.perform ops m)) :
      Attained lawful policy (finalState Operation.perform ops m)

end Statements

/-! ### Finite maps with nulls -/

namespace Spec

variable {κ ν : Type} [BEq κ] [EquivBEq κ] {M : FiniteMap κ (Option ν)} {key : κ}

/-- What was inserted under a key is read. -/
theorem read_insert_self (M : FiniteMap κ (Option ν)) (key : κ) (stored : Option ν) :
    read (M.insert key stored) key = stored := by
  rw [read, M.get?_insert_self]
  rfl

/-- What was put under a key is read. -/
theorem read_put_self (M : FiniteMap κ (Option ν)) (key : κ) (stored : Option ν) :
    read (M.put key stored) key = stored := by
  rw [read, M.get?_put_self]
  rfl

omit [EquivBEq κ] in
theorem read_erase_self (M : FiniteMap κ (Option ν)) (key : κ) : read (M.erase key) key = none := by
  rw [read, M.get?_erase_self]
  rfl

/-- What a call returns is the value that is now stored under a key. -/
def Stores (key : κ) (c : Change (FiniteMap κ (Option ν)) (Option ν)) : Prop :=
  ∀ value, c.result = .ok value → read c.state key = value

omit [EquivBEq κ] in
/-- An answer without a call of the function stores what it says. -/
theorem stores_done {value : Option ν} (h : read M key = value) : Stores key (.done M value) := by
  intro result hresult
  obtain rfl := Except.ok.inj hresult
  exact h

omit [EquivBEq κ] in
/-- Where a function panics there is no answer, and nothing is said about what is stored. -/
theorem stores_run {γ β : Type} {arguments : γ} {reply : Reply β} {broken : FiniteMap κ (Option ν)}
    {next : β → Change (FiniteMap κ (Option ν)) (Option ν)} (h : ∀ computed, Stores key (next computed)) :
    Stores key (Call.run arguments reply broken next).toChange := by
  cases reply with
  | panics => nofun
  | answers computed => exact h computed

omit [EquivBEq κ] in
/-- What is settled is the answer: the value that is kept, or nothing. -/
theorem stores_settle {keep : ν → FiniteMap κ (Option ν)} (h : ∀ v, read (keep v) key = some v)
    (computed : Option ν) : Stores key (settle M key keep computed) := by
  cases computed with
  | none => exact stores_done (read_erase_self M key)
  | some v => exact stores_done (h v)

/-- The answer is what is read under the key afterwards. -/
theorem stores_computeIfAbsent (M : FiniteMap κ (Option ν)) (key : κ) (f : κ → Reply (Option ν)) :
    Stores key (computeIfAbsent M key f).toChange := by
  rw [computeIfAbsent]
  cases hread : read M key with
  | some old => exact stores_done hread
  | none =>
      refine stores_run fun computed => ?_
      cases computed with
      | none => exact stores_done hread
      | some v => exact stores_done (read_insert_self M key (some v))

theorem stores_computeIfPresent (M : FiniteMap κ (Option ν)) (key : κ)
    (f : κ → ν → Reply (Option ν)) : Stores key (computeIfPresent M key f).toChange := by
  rw [computeIfPresent]
  cases hfind : M.find? key with
  | none => exact stores_done (by simp [read, FiniteMap.get?_eq, hfind])
  | some e =>
      obtain ⟨stored, v⟩ := e
      cases v with
      | none => exact stores_done (by simp [read, FiniteMap.get?_eq, hfind])
      | some old => exact stores_run (stores_settle fun v => read_insert_self M key (some v))

/-- The answer is what is read under the key afterwards, also where the entry is removed. -/
theorem stores_compute (M : FiniteMap κ (Option ν)) (key : κ)
    (f : κ → Option ν → Reply (Option ν)) : Stores key (compute M key f).toChange :=
  stores_run (stores_settle fun v => read_put_self M key (some v))

/-- The answer is what is read under the key afterwards, merged or new. -/
theorem stores_merge (M : FiniteMap κ (Option ν)) (key : κ) (value : ν)
    (f : ν → ν → Reply (Option ν)) : Stores key (merge M key value f).toChange := by
  rw [merge]
  cases read M key with
  | none => exact stores_done (read_put_self M key (some value))
  | some old => exact stores_run (stores_settle fun v => read_put_self M key (some v))

/-! Where the nulls are -/

omit [BEq κ] [EquivBEq κ] in
/-- Every null is under a key with a property. -/
def NullsUnder (P : κ → Prop) (M : FiniteMap κ (Option ν)) : Prop := ∀ e ∈ M.entries, e.2 = none → P e.1

variable {P : κ → Prop}

/-- A null may take the place of the value of a present key, which is equal to the one it is stored under. -/
theorem NullsUnder.insert (h : NullsUnder P M) (hP : ∀ {a b}, (a == b) = true → P a → P b) {key : κ}
    {stored : Option ν} (hstored : stored = none → P key) : NullsUnder P (M.insert key stored) := by
  rw [FiniteMap.insert]
  split
  · intro e he hnull
    -- the key is present and keeps its stored form
    obtain ⟨x, hx, rfl⟩ := List.mem_map.mp he
    split at hnull
    case isTrue hsame =>
      rw [if_pos hsame]
      exact hP (BEq.symm hsame) (hstored hnull)
    case isFalse hother =>
      rw [if_neg hother]
      exact h x hx hnull
  · intro e he hnull
    rcases List.mem_cons.mp he with rfl | hmem
    · exact hstored hnull
    · exact h e hmem hnull

/-- A value that is stored adds no null. -/
theorem NullsUnder.insertValue (h : NullsUnder P M) (hP : ∀ {a b}, (a == b) = true → P a → P b) (key : κ)
    (value : ν) : NullsUnder P (M.insert key (some value)) :=
  h.insert hP fun hnull => absurd hnull (Option.some_ne_none value)

omit [EquivBEq κ] in
/-- A removal adds no null. -/
theorem NullsUnder.erase (h : NullsUnder P M) (key : κ) : NullsUnder P (M.erase key) :=
  fun e he => h e (List.mem_of_mem_filter he)

omit [EquivBEq κ] in
/-- A value that is put adds no null. -/
theorem NullsUnder.put (h : NullsUnder P M) (key : κ) (value : ν) :
    NullsUnder P (M.put key (some value)) := by
  intro e he hnull
  rcases List.mem_cons.mp he with rfl | hmem
  · contradiction
  · exact h.erase key e hmem hnull

/-- A list of insertions adds nulls only where the list has them. -/
theorem NullsUnder.foldl_insert (h : NullsUnder P M) (hP : ∀ {a b}, (a == b) = true → P a → P b)
    {l : List (κ × Option ν)} (hl : ∀ e ∈ l, e.2 = none → P e.1) :
    NullsUnder P (l.foldl (fun M e => M.insert e.1 e.2) M) := by
  induction l generalizing M with
  | nil => exact h
  | cons e rest ih =>
      obtain ⟨hhead, hrest⟩ := List.forall_mem_cons.mp hl
      exact ih (h.insert hP hhead) hrest

omit [EquivBEq κ] in
/-- A null that is computed removes the entry. -/
theorem NullsUnder.settle (h : NullsUnder P M) {keep : ν → FiniteMap κ (Option ν)}
    (hkeep : ∀ v, NullsUnder P (keep v)) (computed : Option ν) :
    NullsUnder P (Spec.settle M key keep computed).state := by
  cases computed with
  | none => exact h.erase key
  | some v => exact hkeep v

omit [BEq κ] [EquivBEq κ] in
theorem nullsUnder_run {γ β : Type} {arguments : γ} {reply : Reply β} {broken : FiniteMap κ (Option ν)}
    {next : β → Change (FiniteMap κ (Option ν)) (Option ν)} (hbroken : NullsUnder P broken)
    (hnext : ∀ computed, NullsUnder P (next computed).state) :
    NullsUnder P (Call.run arguments reply broken next).state := by
  cases reply with
  | panics => exact hbroken
  | answers computed => exact hnext computed

/-- A computed null is not stored. -/
theorem NullsUnder.computeIfAbsent (h : NullsUnder P M) (hP : ∀ {a b}, (a == b) = true → P a → P b)
    (key : κ) (f : κ → Reply (Option ν)) : NullsUnder P (Spec.computeIfAbsent M key f).state := by
  rw [Spec.computeIfAbsent]
  cases read M key with
  | some old => exact h
  | none =>
      refine nullsUnder_run h fun computed => ?_
      cases computed with
      | none => exact h
      | some v => exact h.insertValue hP key v

/-- A computed null removes the entry. -/
theorem NullsUnder.computeIfPresent (h : NullsUnder P M) (hP : ∀ {a b}, (a == b) = true → P a → P b)
    (key : κ) (f : κ → ν → Reply (Option ν)) : NullsUnder P (Spec.computeIfPresent M key f).state := by
  rw [Spec.computeIfPresent]
  cases M.find? key with
  | none => exact h
  | some e =>
      obtain ⟨stored, v⟩ := e
      cases v with
      | none => exact h
      | some old => exact nullsUnder_run (h.erase key) (h.settle fun v => h.insertValue hP key v)

omit [EquivBEq κ] in
theorem NullsUnder.compute (h : NullsUnder P M) (key : κ) (f : κ → Option ν → Reply (Option ν)) :
    NullsUnder P (Spec.compute M key f).state :=
  nullsUnder_run (h.erase key) (h.settle fun v => h.put key v)

omit [EquivBEq κ] in
/-- A merge stores values only. -/
theorem NullsUnder.merge (h : NullsUnder P M) (key : κ) (value : ν) (f : ν → ν → Reply (Option ν)) :
    NullsUnder P (Spec.merge M key value f).state := by
  rw [Spec.merge]
  cases read M key with
  | none => exact h.put key value
  | some old => exact nullsUnder_run (h.erase key) (h.settle fun v => h.put key v)

end Spec

/-- No operation on a map that refuses nulls makes one; it may copy one. -/
theorem Operation.nullsUnder_specify {σ η κ ν : Type} [EntrySlot σ κ ν] [BEq κ] [EquivBEq κ] [BEq ν]
    {P : κ → Prop} (hP : ∀ {a b}, (a == b) = true → P a → P b) {M : FiniteMap κ (Option ν)}
    {order : List (κ × Option ν)} (op : Operation σ η κ ν) (hM : Spec.NullsUnder P M)
    (horder : order.Perm M.entries) (hcopied : ∀ other, op = .insertAll other → other.NullsUnder P) :
    Spec.NullsUnder P (op.specify .nonNull order M).state := by
  -- sweeps and cursors pass the entries of the map only
  have hordered : ∀ e ∈ order, e.2 = none → P e.1 := fun e he => hM e (horder.mem_iff.mp he)
  cases op with
  | get? | contains | containsValue | len | insertNull | compact | copy => exact hM
  | insert key value => exact hM.insertValue hP key value
  | insertIfAbsent key value =>
      simp only [specify, Spec.insertIfAbsent]
      cases Spec.read M key with
      | some old => exact hM
      | none => exact hM.insertValue hP key value
  | replace key value =>
      simp only [specify, Spec.replace]
      split
      · exact hM.insertValue hP key value
      · exact hM
  | replaceIf key old new =>
      simp only [specify, Spec.replaceIf]
      split
      · exact hM.insertValue hP key new
      · exact hM
  | modify key f =>
      simp only [specify, Spec.modify]
      cases Spec.read M key with
      | some old => exact hM.insertValue hP key (f old)
      | none => exact hM
  -- nulls come in only with the entries of another map
  | insertAll other => exact hM.foldl_insert hP (hcopied other rfl)
  | extend entries =>
      -- a list of keys with values has no nulls
      have hvalues : ∀ e ∈ entries.map fun e => (e.1, some e.2), e.2 = none → P e.1 := by
        intro e he hnull
        obtain ⟨x, -, rfl⟩ := List.mem_map.mp he
        contradiction
      have hstored := hM.foldl_insert hP hvalues
      rwa [List.foldl_map] at hstored
  | erase key | eraseEntry key => exact hM.erase key
  | eraseIfValue key value =>
      simp only [specify, Spec.eraseIfValue]
      split
      · exact hM.erase key
      · exact hM
  | eraseWhere selects => exact fun e he => hordered e ((sift_sublist _ order false).mem he)
  | retain keeps => exact fun e he => hordered e ((sift_sublist _ order false).mem he)
  | forEach f =>
      have hstate : (Call.forEach (fun e => f e.1 e.2) M order).state = M := Call.state_forEach ..
      exact hstate.symm ▸ hM
  | clear => exact List.forall_mem_nil _
  | computeIfAbsent key f => exact hM.computeIfAbsent hP key f
  | computeIfPresent key f => exact hM.computeIfPresent hP key f
  | compute key f => exact hM.compute key f
  | merge key value f => exact hM.merge key value f
  | cursor script =>
      -- a cursor writes values only, and never in the place of a null
      refine Walk.forall_runScript script ?_ ?_
      · intro value update hupdate e x he hx hnull
        obtain rfl := Except.ok.inj hupdate
        obtain ⟨old, -, rfl⟩ := Option.map_eq_some_iff.mp hx
        contradiction
      · simpa [Walk.contents, Spec.walk] using hordered

/-! ### What holds of the table -/

section Represented

variable {σ η κ ν γ : Type} [EntrySlot σ κ ν] [KeyHash η κ] [BEq κ] [EquivBEq κ]
variable {hashing : η} {policy : NullPolicy} {within : Prop}
variable {m : ValueMap σ η κ ν} {M : FiniteMap κ (Option ν)} {key k : κ}

/-- A call that does what is specified answers what is read under the key afterwards. -/
theorem Returns.of_calls {c : Call (ValueMap σ η κ ν) γ (Option ν)}
    {d : Call (FiniteMap κ (Option ν)) γ (Option ν)} (hE : LawfulSlots σ hashing)
    (h : Calls hashing policy within c d) (hd : Spec.Stores key d.toChange) : Returns key c := by
  intro value hresult
  rcases h with hagrees | ⟨hoverflow, -⟩
  · rw [hagrees.state.get?_eq hE]
    exact hd value (hagrees.result ▸ hresult)
  · rw [hoverflow] at hresult
    contradiction

/-- **Answers of updates are what is stored.** -/
theorem Represents.returnsStored (h : m.Represents hashing policy within M)
    (hE : LawfulSlots σ hashing) : m.ReturnsStored where
  computeIfAbsent key f := .of_calls hE (h.computeIfAbsent hE) (Spec.stores_computeIfAbsent M key f)
  computeIfPresent key f :=
    .of_calls hE (h.computeIfPresent hE) (Spec.stores_computeIfPresent M key f)
  compute key f := .of_calls hE (h.compute hE) (Spec.stores_compute M key f)
  merge key value f := .of_calls hE (h.merge hE) (Spec.stores_merge M key value f)
  insertAt {key stored i j} hlocate hresult := by
    have hsought := h.sought hE key
    rw [hlocate] at hsought
    cases hsought with
    | vacant located absent =>
        rw [hashOf, h.hashing_eq] at hresult ⊢
        have hinsert := h.table.insertAt hE located (EntryLayout.anyEntry key stored)
        -- after a growth the slot is another one, but the search ends at it
        rcases hinsert with ⟨j', hresult', hentry, hstate⟩ | ⟨hoverflow, -⟩
        · obtain rfl : j = j' := Except.ok.inj (hresult.symm.trans hresult')
          have hinserted : (m.insertAt i (KeyHash.hash hashing key) key stored).state.Represents hashing
              policy within ⟨(key, stored) :: M.entries⟩ := h.withTable hstate
          exact hinserted.find?_of_entryAt? hE hentry BEq.rfl
        · exact absurd (hresult.symm.trans hoverflow) (by simp)

omit [BEq κ] [EquivBEq κ] [EntrySlot σ κ ν] [KeyHash η κ] in
/-- A function of the caller is run once, whether it panics or not. -/
theorem calls_run {β : Type} {arguments : γ} {reply : Reply β} {broken : ValueMap σ η κ ν}
    {next : β → Change (ValueMap σ η κ ν) (Option ν)} :
    (Call.run arguments reply broken next).calls = [arguments] := by
  cases reply <;> rfl

/-- **A null under a key is filled** by whatever stores a value there. -/
theorem Represents.fillsNull (h : m.Represents hashing policy within M) (hE : LawfulSlots σ hashing)
    (hlookup : m.lookup? key = some (k, none)) : m.FillsNull key := by
  obtain ⟨i, rest, hlocate, hfind, hentry, hpresent⟩ := h.exists_of_lookup? hE hlookup
  have hvalue : m.valueAt? i = none := valueAt?_of_entryAt? hentry
  have hset := h.setStoredAt hE hentry hpresent
  -- all of them write into the slot of the null
  have hstored : ∀ value, (m.setStoredAt i (some value)).get? key = some value := by
    intro value
    rw [(hset (some value)).1.get?_eq hE, Spec.read_insert_self]
  exact
    { contains := by rw [h.contains_eq hE, hpresent.contains]
      get? := by rw [h.get?_eq hE, read_of_present hpresent]
      insertIfAbsent := by
        intro value
        simp only [ValueMap.insertIfAbsent, hlocate, hvalue]
        exact ⟨rfl, hstored value⟩
      computeIfAbsent := by
        intro f value hf
        simp only [ValueMap.computeIfAbsent, hlocate, hvalue, hf]
        exact ⟨rfl, congrArg Except.ok (hset (some value)).2, hstored value⟩
      merge := by
        intro value f
        have hsettle := h.settle hE hentry hpresent hpresent.same
          (fun v => hpresent.put (some v)) (some value)
        simp only [ValueMap.merge, hlocate, hvalue, hashOf, h.hashing_eq]
        rcases hsettle with hagrees | ⟨hoverflow, -⟩
        · refine ⟨rfl, hagrees.result, ?_⟩
          have hstate := hagrees.state.get?_eq hE key
          exact hstate.trans (Spec.read_put_self M key (some value))
        · contradiction
      compute := by
        intro f
        simp only [ValueMap.compute, hlocate, hvalue]
        exact calls_run
      computeIfPresent := by
        intro f
        simp only [ValueMap.computeIfPresent, hlocate, ValueMap.layout, hentry] }

/-! ### Runs -/

omit [EquivBEq κ] in
/-- The nulls in a map are those of the finite map it stands for. -/
theorem Represents.nullsUnder_iff (h : m.Represents hashing policy within M) {P : κ → Prop} :
    m.NullsUnder P ↔ Spec.NullsUnder P M :=
  ⟨fun hnulls e he => hnulls e (h.table.entries.mem_iff.mpr he),
    fun hnulls e he => hnulls e (h.table.entries.mem_iff.mp he)⟩

/-- A run of a map that refuses nulls leaves nulls only where the maps that it copies have some. -/
theorem Represents.nullsUnder_of_run [BEq ν] (hE : LawfulSlots σ hashing)
    (h : m.Represents hashing .nonNull within M) {P : κ → Prop}
    (hP : ∀ {a b}, (a == b) = true → P a → P b) (hM : Spec.NullsUnder P M) {ops : List (Operation σ η κ ν)}
    (hcopied : ∀ other, .insertAll other ∈ ops → other.NullsUnder P)
    (hno : NoOverflow (trace Operation.perform ops m)) :
    (∀ c ∈ trace Operation.perform ops m, c.state.NullsUnder P) ∧
      (finalState Operation.perform ops m).NullsUnder P := by
  -- the finite map has nulls only under the keys that are allowed; each operation keeps that
  induction ops generalizing m M with
  | nil => exact ⟨List.forall_mem_nil _, h.nullsUnder_iff.mpr hM⟩
  | cons op rest ih =>
      obtain ⟨d, ⟨order, horder, rfl⟩, hagrees | ⟨hoverflow, -⟩⟩ := h.perform hE op
      · have hnext := op.nullsUnder_specify hP hM horder fun other hop =>
          hcopied other (hop ▸ List.mem_cons_self)
        obtain ⟨htrace, hfinal⟩ := ih hagrees.state hnext
          (fun other hother => hcopied other (List.mem_cons_of_mem op hother))
          fun c hc => hno c (List.mem_cons_of_mem _ hc)
        have hfirst : (op.perform m).state.NullsUnder P := hagrees.state.nullsUnder_iff.mpr hnext
        exact ⟨List.forall_mem_cons.mpr ⟨hfirst, htrace⟩, hfinal⟩
      · exact absurd hoverflow (hno _ List.mem_cons_self)

omit [KeyHash η κ] in
/-- Equal keys are copied with nulls alike. -/
theorem CopiesNull.congr [BEq ν] {ops : List (Operation σ η κ ν)} {a b : κ} (hab : (a == b) = true)
    (h : CopiesNull ops a) : CopiesNull ops b := by
  obtain ⟨other, hother, e, he, hsame, hnull⟩ := h
  exact ⟨other, hother, e, he, BEq.trans hsame hab, hnull⟩

omit [KeyHash η κ] in
theorem nullsUnder_copiesNull [BEq ν] {ops : List (Operation σ η κ ν)} {other : ValueMap σ η κ ν}
    (hother : .insertAll other ∈ ops) : other.NullsUnder (CopiesNull ops) :=
  fun e he hnull => ⟨other, hother, e, he, BEq.rfl, hnull⟩

/-- **A map that refuses nulls holds none**, if none is copied from a map that does not. -/
theorem nullFree_of_attained [BEq ν] {lawful : η → Prop}
    (hlawful : ∀ hashing, lawful hashing → LawfulSlots σ hashing)
    (h : Attained lawful .nonNull m) : m.NullFree := by
  induction h with
  | @run hashing _ new _ hhashing hnew _ hno ih =>
      have hE : LawfulSlots σ hashing := hlawful hashing hhashing
      have hstart : new.Represents hashing .nonNull True {} := represents_of_ofConfig hE hnew
      have hnone : Spec.NullsUnder (fun _ => False) ({} : FiniteMap κ (Option ν)) :=
        List.forall_mem_nil _
      exact (hstart.nullsUnder_of_run hE (fun _ => id) hnone ih hno).2

/-- **Every run of a map is a run of a finite map**, as long as no insertion fails to grow the table. -/
theorem Represents.run_matches [BEq ν] (hE : LawfulSlots σ hashing)
    (h : m.Represents hashing policy within M) {ops : List (Operation σ η κ ν)}
    (hno : NoOverflow (trace Operation.perform ops m)) :
    (∃ calls, Runs (Operation.Allows policy) ops M calls ∧
      List.Forall₂ Matches (trace Operation.perform ops m) calls) ∧
    ∃ N, (finalState Operation.perform ops m).Represents hashing policy within N := by
  obtain ⟨⟨calls, hruns, hall⟩, hfinal⟩ := exists_runs (fun op _ _ h => h.perform hE op) ops h hno
  refine ⟨⟨calls, hruns, hall.imp fun c d hagrees => ?_⟩, hfinal⟩
  exact
    { result := hagrees.result
      calls := hagrees.calls
      len := hagrees.state.table.len_eq_length
      distinct := hagrees.state.distinct
      entries := hagrees.state.table.entries }

end Represented

end ValueMap

/-! ### Maps from words -/

namespace WordKeyMap

open ValueMap

/-- **A map from words refines a finite map** with optional values, as long as no insertion fails to grow the
table. What its computations return is what it stores, and nulls read as no value. A map that refuses nulls
has those that it copies from other maps, and so none after any call if these refuse them too. -/
theorem run_refines_optionalValues {κ ν : Type} [SignedWord κ] [BEq ν] {config : TableConfig}
    {policy : NullPolicy} {m : WordKeyMap κ ν} (hm : ofConfig config policy {} = .ok m)
    (ops : List (Operation (WordSlot κ ν) Spreading κ ν))
    (hno : NoOverflow (trace Operation.perform ops m)) :
    (∃ calls, Runs (Operation.Allows policy) ops {} calls ∧
      List.Forall₂ Matches (trace Operation.perform ops m) calls) ∧
    (finalState Operation.perform ops m).ReturnsStored ∧
    (∀ key k, (finalState Operation.perform ops m).lookup? key = some (k, none) →
      (finalState Operation.perform ops m).FillsNull key) ∧
    (policy = .nonNull → ∀ c ∈ trace Operation.perform ops m, c.state.NullsUnder (CopiesNull ops)) ∧
    (policy = .nonNull → (∀ other, .insertAll other ∈ ops → Attained (fun _ => True) .nonNull other) →
      ∀ c ∈ trace Operation.perform ops m, c.state.NullFree) := by
  have hE : ∀ hashing : Spreading, LawfulSlots (κ := κ) (WordSlot κ ν) hashing := wordSlot_lawful
  have hstart : m.Represents {} policy True {} := represents_of_ofConfig (hE _) hm
  obtain ⟨hruns, M, hfinal⟩ := hstart.run_matches (hE _) hno
  refine ⟨hruns, hfinal.returnsStored (hE _), fun key k => hfinal.fillsNull (hE _), ?_, ?_⟩
  · rintro rfl
    exact (hstart.nullsUnder_of_run (hE _) CopiesNull.congr (List.forall_mem_nil _)
      (fun other => nullsUnder_copiesNull) hno).1
  · rintro rfl hcopied
    have hfree : ∀ other, .insertAll other ∈ ops → other.NullFree := fun other hother =>
      nullFree_of_attained (fun hashing _ => hE hashing) (hcopied other hother)
    have hnone : Spec.NullsUnder (fun _ => False) ({} : FiniteMap κ (Option ν)) :=
      List.forall_mem_nil _
    exact (hstart.nullsUnder_of_run (hE _) (fun _ => id) hnone hfree hno).1

/-- A run in which a null is filled and computed values make the table grow, and one of a map that refuses
nulls and copies another. -/
theorem run_refines_optionalValues_growing :
    let ops : List (Operation (WordSlot Int32 Int32) Spreading Int32 Int32) :=
      [.insert 1 10, .insertNull 9, .merge 9 90 fun _ _ => .panics, .insertNull 17, .insert 2 20,
        .insert 3 30, .insert 4 40, .computeIfAbsent 7 fun _ => .answers (some 70),
        .computeIfPresent 17 fun _ _ => .panics, .compute 8 fun _ old => .answers (old.or (some 80)),
        .retain fun key _ => .answers (key < 10), .modify 1 (· + 1), .compact]
    let nullable : WordKeyMap Int32 Int32 := .empty .nullable {}
    let nonNull : WordKeyMap Int32 Int32 := .empty .nonNull {}
    let copied := finalState Operation.perform [.insert 5 50] nonNull
    ofConfig {} .nullable {} = .ok nullable ∧ NoOverflow (trace Operation.perform ops nullable) ∧
      (∃ calls, Runs (Operation.Allows .nullable) ops {} calls ∧
        List.Forall₂ Matches (trace Operation.perform ops nullable) calls) ∧
      (finalState Operation.perform ops nullable).ReturnsStored ∧
    ofConfig {} .nonNull {} = .ok nonNull ∧
      NoOverflow (trace Operation.perform (ops ++ [.insertAll copied]) nonNull) ∧
      ∀ c ∈ trace Operation.perform (ops ++ [.insertAll copied]) nonNull, c.state.NullFree := by
  intro ops nullable nonNull copied
  have hnullable : ofConfig {} .nullable {} = .ok nullable := ofConfig_default _ _
  have hnonNull : ofConfig {} .nonNull {} = .ok nonNull := ofConfig_default _ _
  have hno : NoOverflow (trace Operation.perform ops nullable) := by decide +kernel
  have hno' : NoOverflow (trace Operation.perform (ops ++ [.insertAll copied]) nonNull) := by
    decide +kernel
  have hattained : Attained (fun _ => True) .nonNull copied :=
    .run trivial hnonNull (fun other hother => by simp at hother) (by decide +kernel)
  have hcopied : ∀ other, .insertAll other ∈ ops ++ [.insertAll copied] →
      Attained (fun _ => True) .nonNull other := by
    intro other hother
    simp only [ops, List.cons_append, List.nil_append, List.mem_cons, List.not_mem_nil, reduceCtorEq,
      false_or, or_false, Operation.insertAll.injEq] at hother
    exact hother ▸ hattained
  obtain ⟨hruns, hreturns, -⟩ := run_refines_optionalValues hnullable ops hno
  obtain ⟨-, -, -, -, hfree⟩ := run_refines_optionalValues hnonNull _ hno'
  exact ⟨hnullable, hno, hruns, hreturns, hnonNull, hno', hfree rfl hcopied⟩

end WordKeyMap

end LinearProbing
