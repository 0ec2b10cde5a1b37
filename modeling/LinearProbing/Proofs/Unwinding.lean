import LinearProbing.Hash.Choice
import LinearProbing.Proofs.ExactScan

/-!
# LinearProbing.Proofs.Unwinding

**What a panic of the caller's function leaves.** Whenever a function of the caller panics, the container is
in a state that the call defines:

* a map to values takes an entry out before a function computes on it, and finishes the removal when the
  function panics, so the map is left as if nothing had been computed (`ValueMap.Drops`);
* all other computations have changed nothing yet when their function runs;
* removal by a predicate has removed what the predicate has selected so far
  (`Scannable.StopsAtPanic`).

All that is left is found by later calls (`Scannable.Intact`). Maps from pairs and tallies have one of these
tables inside, and hand it the functions of the caller.
-/

namespace LinearProbing

/-! ### Predicates that panic -/

namespace Scannable

variable {τ χ ε ω β σ κ ν : Type}

/-- All that a container holds is found, and the container counts as many. -/
structure Intact (C : Scannable τ χ ε σ κ ν) (finds : τ → ε → Prop) (s : τ) : Prop where
  len_eq : C.len s = (C.contents s).length
  found : ∀ e ∈ C.contents s, finds s e

/-- A removal that a panic of its predicate has ended: the predicate was asked about `asked`, and exactly
`left` is left. -/
structure Interrupted (C : Scannable τ χ ε σ κ ν) (finds : τ → ε → Prop) (c : Call τ ε β)
    (asked left : List ε) : Prop where
  result : c.result = .error .panicked
  calls : c.calls = asked
  contents : (C.contents c.state).Perm left
  intact : C.Intact finds c.state

/-- When the predicate of a removal panics, exactly what it has not selected before is left. There is one
order in which every predicate is asked, whatever it answers; `removes` reads its answers. -/
def StopsAtPanic (C : Scannable τ χ ε σ κ ν) (finds : τ → ε → Prop)
    (sweep : (ε → Reply Bool) → τ → Call τ ε β) (removes : Bool → Bool) (s : τ) : Prop :=
  ∃ order, order.Perm (C.contents s) ∧
    ∀ (p : ε → Reply Bool) (answer : ε → Bool) (before after : List ε) (e : ε),
      order = before ++ e :: after → (∀ x ∈ before, p x = .answers (answer x)) → p e = .panics →
        C.Interrupted finds (sweep p s) (before ++ [e])
          (before.filter (fun x => ! removes (answer x)) ++ e :: after)

/-- A removal that goes along an order like one along a list stops like it. -/
theorem SweepsAlong.stopsAtPanic [CursorInterface χ ε ω] {C : Scannable τ χ ε σ κ ν}
    {finds : τ → ε → Prop} {sweep : (ε → Reply Bool) → τ → Call τ ε β}
    {reads : Reply Bool → Reply Bool} {removes : Bool → Bool} {flag : Bool → β} {s : τ} {order : List ε}
    (h : C.SweepsAlong sweep reads flag s order) (hperm : order.Perm (C.contents s))
    (hanswers : ∀ answer, reads (.answers answer) = .answers (removes answer))
    (hpanics : reads .panics = .panics) (hintact : ∀ p, C.Intact finds (sweep p s).state) :
    C.StopsAtPanic finds sweep removes s := by
  refine ⟨order, hperm, ?_⟩
  intro p answer before after e horder hbefore he
  have hreads : ∀ x ∈ before, reads (p x) = .answers (removes (answer x)) := by
    intro x hx
    rw [hbefore x hx, hanswers]
  have hstop : reads (p e) = .panics := by rw [he, hpanics]
  have hsift := sift_of_panics false hreads hstop after
  obtain ⟨⟨hresult, -, hcontents⟩, hcalls⟩ := h.agrees p
  rw [horder, hsift] at hresult hcontents hcalls
  exact ⟨hresult, hcalls, hcontents, hintact p⟩

end Scannable

/-! ### Maps to values -/

namespace ValueMap

section Statements

variable {σ η κ ν γ : Type} [EntrySlot σ κ ν] [KeyHash η κ] [BEq κ]

/-- An entry is found under its key. -/
def Finds (m : ValueMap σ η κ ν) (e : κ × Option ν) : Prop := m.lookup? e.1 = some e

/-- `u` is the map without the entry of a key, and with every other one. -/
structure Without (m : ValueMap σ η κ ν) (key : κ) (u : ValueMap σ η κ ν) : Prop where
  entries_perm : ∃ e, m.lookup? key = some e ∧ m.entries.Perm (e :: u.entries)
  len_eq : m.len = u.len + 1
  lookup?_eq_none : u.lookup? key = none
  found : ∀ e ∈ m.entries, (e.1 == key) = false → u.Finds e

/-- A computation on the entry of a key that has panicked: `c` is the call, and `d` the same call with a
function that computes nothing. -/
structure Drops (m : ValueMap σ η κ ν) (key : κ) (c d : Call (ValueMap σ η κ ν) γ (Option ν)) : Prop where
  result : c.result = .error .panicked
  calls_eq : c.calls = d.calls
  /-- Both leave the same map, slot for slot. -/
  state_eq : c.state = d.state
  without : m.Without key c.state

/-- What computations leave when their functions panic. -/
structure Unwinds (m : ValueMap σ η κ ν) : Prop where
  compute_present : ∀ {key : κ} {f : κ → Option ν → Reply (Option ν)}, m.contains key = true →
    f key (m.get? key) = .panics →
      m.Drops key (m.compute key f) (m.compute key fun _ _ => .answers none)
  computeIfPresent : ∀ {key stored : κ} {old : ν} {f : κ → ν → Reply (Option ν)},
    m.lookup? key = some (stored, some old) → f stored old = .panics →
      m.Drops key (m.computeIfPresent key f) (m.computeIfPresent key fun _ _ => .answers none)
  merge : ∀ {key : κ} {old value : ν} {f : ν → ν → Reply (Option ν)}, m.get? key = some old →
    f old value = .panics →
      m.Drops key (m.merge key value f) (m.merge key value fun _ _ => .answers none)
  /-- Nothing was taken out for a key that is absent. -/
  compute_absent : ∀ {key : κ} {f : κ → Option ν → Reply (Option ν)}, m.contains key = false →
    f key none = .panics → m.compute key f = .after (key, none) (.fail m .panicked)
  /-- Neither was it for a key that is absent or null. -/
  computeIfAbsent : ∀ {key : κ} {f : κ → Reply (Option ν)}, m.get? key = none → f key = .panics →
    m.computeIfAbsent key f = .after key (.fail m .panicked)

theorem drops_run {m u : ValueMap σ η κ ν} {key : κ} {arguments : γ}
    {next : Option ν → Change (ValueMap σ η κ ν) (Option ν)} (hu : m.Without key u)
    (hnext : (next none).state = u) :
    m.Drops key (.run arguments .panics u next) (.run arguments (.answers none) u next) :=
  ⟨rfl, rfl, hnext.symm, hu⟩

end Statements

variable {σ η κ ν : Type} [EntrySlot σ κ ν] [KeyHash η κ] [BEq κ] [EquivBEq κ]
variable {hashing : η} {policy : NullPolicy} {within : Prop}
variable {m : ValueMap σ η κ ν} {M : FiniteMap κ (Option ν)}
variable {i : Nat} {key k : κ} {v : Option ν} {rest : List (κ × Option ν)}

theorem Represents.intact (h : m.Represents hashing policy within M) (hE : LawfulSlots σ hashing) :
    (scannable σ η κ ν).Intact Finds m where
  len_eq := h.length_entries.symm
  found e he := by
    have hmem : e ∈ M.entries := h.table.entries.mem_iff.mp he
    rw [Finds, h.lookup?_eq hE, h.distinct.find?_eq hmem]

/-- Removing the entry of a present key leaves the other entries. -/
theorem Represents.without_eraseAt (h : m.Represents hashing policy within M)
    (hE : LawfulSlots σ hashing) (hentry : m.table.entryAt? EntrySlot.layout i = some (k, v))
    (hp : M.Present key k v rest) : m.Without key (m.eraseAt i) := by
  have hu : (m.eraseAt i).Represents hashing policy within (M.erase key) := h.eraseAt hE hentry hp
  exact
    -- the erased map means the erased finite map; every field reads both meanings
    { entries_perm := by
        refine ⟨(k, v), ?_, ?_⟩
        · rw [h.lookup?_eq hE, hp.find?]
        · have hleft : (m.eraseAt i).entries.Perm rest := hu.table.entries.trans hp.erase
          exact h.table.entries.trans (hp.split.trans (hleft.symm.cons _))
      len_eq := by
        have hm : m.len = M.size := h.table.len_eq_length
        have hlen : (m.eraseAt i).len = (M.erase key).entries.length := hu.table.len_eq_length
        rw [hm, hlen, hp.size, hp.erase.length_eq]
      lookup?_eq_none := by
        have habsent : (M.erase key).Absent key := by
          intro e he
          exact hp.others e (hp.erase.mem_iff.mp he)
        rw [hu.lookup?_eq hE, habsent.find?]
      found := by
        intro e he hne
        have hmem : e ∈ (M.erase key).entries := by
          refine List.mem_filter.mpr ⟨h.table.entries.mem_iff.mp he, ?_⟩
          simp [hne]
        rw [Finds, hu.lookup?_eq hE, hu.distinct.find?_eq hmem] }

/-- **A panic of a function that computes** leaves the map without the entry that was taken out, and changes
nothing if none was. -/
theorem Represents.unwinds (h : m.Represents hashing policy within M) (hE : LawfulSlots σ hashing) :
    m.Unwinds where
  compute_present {key f} hc hf := by
    -- the entry is taken out of its slot before the function is asked, so a panic drops it
    obtain ⟨i, k, v, rest, hlocate, hfind, hentry, hpresent⟩ := h.exists_found hE hc
    have hget : m.get? key = m.valueAt? i := by rw [ValueMap.get?, hfind, Option.bind_some]
    simp only [ValueMap.compute, hlocate, ← hget, hf]
    exact drops_run (h.without_eraseAt hE hentry hpresent) rfl
  computeIfPresent {key stored old f} hlookup hf := by
    obtain ⟨i, rest, hlocate, -, hentry, hpresent⟩ := h.exists_of_lookup? hE hlookup
    simp only [ValueMap.computeIfPresent, hlocate, ValueMap.layout, hentry, hf]
    exact drops_run (h.without_eraseAt hE hentry hpresent) rfl
  merge {key old value f} hget hf := by
    obtain ⟨i, k, v, rest, hlocate, hfind, hentry, hpresent⟩ :=
      h.exists_found hE (contains_of_get? hget)
    rw [ValueMap.get?, hfind, Option.bind_some] at hget
    simp only [ValueMap.merge, hlocate, hget, hf]
    exact drops_run (h.without_eraseAt hE hentry hpresent) rfl
  compute_absent {key f} hc hf := by
    have hsought := h.sought hE key
    rw [ValueMap.compute]
    generalize m.locate key = outcome at hsought
    cases hsought with
    | found entry present =>
        rw [h.contains_eq hE, present.contains] at hc
        contradiction
    | vacant located absent =>
        dsimp only
        rw [hf]
        rfl
  computeIfAbsent {key f} hget hf := by
    have hsought := h.sought hE key
    rw [h.get?_eq hE] at hget
    rw [ValueMap.computeIfAbsent]
    generalize m.locate key = outcome at hsought
    cases hsought with
    -- a null is stored under the key, and stays in its slot while the function runs
    | found entry present =>
        rw [read_of_present present] at hget
        dsimp only
        rw [valueAt?_of_entryAt? entry, hget]
        dsimp only
        rw [hf]
        rfl
    | vacant located absent =>
        dsimp only
        rw [hf]
        rfl

theorem Represents.stopsAtPanic (h : m.Represents hashing policy within M) (hE : LawfulSlots σ hashing) :
    (scannable σ η κ ν).StopsAtPanic Finds (fun p m => m.eraseWhere fun k v => p (k, v)) id m ∧
      (scannable σ η κ ν).StopsAtPanic Finds (fun p m => m.retain fun k v => p (k, v)) not m := by
  have hperm : m.scanOrder.Perm m.entries := h.scanOrder_perm.trans h.table.entries.symm
  constructor
  · exact (h.sweepsAlong hE).stopsAtPanic hperm (fun _ => rfl) rfl fun _ =>
      (h.eraseWhere hE _).state.intact hE
  · exact (h.sweepsAlong hE).retain.stopsAtPanic hperm (fun _ => rfl) rfl fun _ =>
      (h.retain hE _).state.intact hE

end ValueMap

/-! ### Maps of words -/

/-- If the call panics, it leaves the container as it was. -/
def Call.Restores {τ γ α : Type} (s : τ) (c : Call τ γ α) : Prop :=
  c.result = .error .panicked → c.state = s

/-- A function that runs before anything is changed. -/
theorem Call.restores_run {τ γ α β : Type} {s : τ} {arguments : γ} {reply : Reply β}
    {next : β → Change τ α} (hnext : ∀ value, (next value).result ≠ .error .panicked) :
    (Call.run arguments reply s next).Restores s := by
  intro hpanicked
  cases reply with
  | panics => rfl
  | answers value => exact absurd hpanicked (hnext value)

theorem Call.restores_done {τ γ α : Type} (s : τ) (value : α) :
    (Call.done s value : Call τ γ α).Restores s := nofun

theorem Change.done_ne_panicked {τ α : Type} (s : τ) (value : α) :
    (Change.done s value).result ≠ .error .panicked := nofun

theorem Change.map_ne_panicked {τ α β : Type} {c : Change τ α} (h : c.result ≠ .error .panicked)
    (f : α → β) : (c.map f).result ≠ .error .panicked :=
  fun hpanicked => h (Change.map_eq_error_iff.mp hpanicked)

theorem Table.insertAt_ne_panicked {σ κ ν : Type} (E : EntryLayout σ κ ν) (t : Table σ) (i : Nat)
    (slot : σ) : (t.insertAt E i slot).result ≠ .error .panicked :=
  fun hpanicked => absurd (Table.failure_of_insertAt hpanicked) (by simp)

namespace WordMap

variable {κ ν : Type} [SignedWord κ] [SignedWord ν]

/-- An entry is found under its key. -/
def Finds (m : WordMap κ ν) (e : κ × ν) : Prop := m.get? e.1 = some e.2

/-- What computations leave when their functions panic: the map as it was. -/
structure Unwinds (m : WordMap κ ν) : Prop where
  computeIfAbsent : ∀ {key : κ} {f : κ → Reply ν}, m.get? key = none → f key = .panics →
    m.computeIfAbsent key f = .after key (.fail m .panicked)
  computeIfPresent : ∀ {key : κ} {old : ν} {f : κ → ν → Reply ν}, m.get? key = some old →
    f key old = .panics → m.computeIfPresent key f = .after (key, old) (.fail m .panicked)
  compute : ∀ {key : κ} {f : κ → ν → Reply ν}, f key (m.get key) = .panics →
    m.compute key f = .after (key, m.get key) (.fail m .panicked)
  merge : ∀ {key : κ} {old value : ν} {f : ν → ν → Reply ν}, value ≠ m.missing →
    m.get? key = some old → f old value = .panics →
      m.merge key value f = .after (old, value) (.fail m .panicked)
  /-- There are no other panics. -/
  restores : ∀ (key : κ) (value : ν) (fa : κ → Reply ν) (fp : κ → ν → Reply ν) (fm : ν → ν → Reply ν),
    (m.computeIfAbsent key fa).Restores m ∧ (m.computeIfPresent key fp).Restores m ∧
      (m.compute key fp).Restores m ∧ (m.merge key value fm).Restores m

theorem insertAt_map_ne_panicked (m : WordMap κ ν) (i : Nat) (key : κ) (value result : ν) :
    ((m.insertAt i key value).map fun _ => result).result ≠ .error .panicked :=
  Change.map_ne_panicked (Table.insertAt_ne_panicked m.layout m.table i _) _

theorem insertComputed_ne_panicked (m : WordMap κ ν) (i : Nat) (key : κ) (value : ν) :
    (m.insertComputed i key value).result ≠ .error .panicked := by
  rw [insertComputed]
  split
  · simp [Change.done]
  · exact m.insertAt_map_ne_panicked i key value value

theorem computeIfAbsent_restores (m : WordMap κ ν) (key : κ) (f : κ → Reply ν) :
    (m.computeIfAbsent key f).Restores m := by
  rw [computeIfAbsent]
  cases m.locate key with
  | found i => exact Call.restores_done m _
  | vacant i => exact Call.restores_run fun value => m.insertComputed_ne_panicked i key value
  | endless => exact fun _ => rfl

theorem computeIfPresent_restores (m : WordMap κ ν) (key : κ) (f : κ → ν → Reply ν) :
    (m.computeIfPresent key f).Restores m := by
  rw [computeIfPresent]
  cases m.locate key with
  | found i => exact Call.restores_run fun value => Change.done_ne_panicked _ value
  | vacant i => exact Call.restores_done m _
  | endless => exact fun _ => rfl

theorem compute_restores (m : WordMap κ ν) (key : κ) (f : κ → ν → Reply ν) :
    (m.compute key f).Restores m := by
  rw [compute]
  cases m.locate key with
  | found i => exact Call.restores_run fun value => Change.done_ne_panicked _ value
  | vacant i => exact Call.restores_run fun value => m.insertComputed_ne_panicked i key value
  | endless => exact fun _ => rfl

theorem merge_restores (m : WordMap κ ν) (key : κ) (value : ν) (f : ν → ν → Reply ν) :
    (m.merge key value f).Restores m := by
  rw [merge]
  split
  · exact fun _ => rfl
  cases m.locate key with
  | found i => exact Call.restores_run fun value => Change.done_ne_panicked _ value
  | vacant i =>
      intro hpanicked
      exact absurd hpanicked (m.insertAt_map_ne_panicked i key value value)
  | endless => exact fun _ => rfl

variable {missing : ν} {within : Prop} {m : WordMap κ ν} {M : FiniteMap κ ν}

theorem Represents.intact (h : m.Represents missing within M) :
    (scannable missing).Intact Finds m where
  len_eq := h.length_entries.symm
  found e he := by
    have hmem : e ∈ M.entries := h.entries_perm.mem_iff.mp he
    have hdistinct : M.Distinct := h.table.distinct
    rw [Finds, h.get?_eq, FiniteMap.get?_eq, hdistinct.find?_eq hmem, Option.map_some]

theorem Represents.unwinds (h : m.Represents missing within M) : m.Unwinds where
  computeIfAbsent {key f} hget hf := by
    have hsought := h.sought key
    rw [h.get?_eq] at hget
    rw [WordMap.computeIfAbsent]
    generalize m.locate key = outcome at hsought
    cases hsought with
    | found entry present =>
        rw [present.get?] at hget
        contradiction
    | vacant located absent => simp only [hf, Call.run, Call.after, Call.fail, Call.quiet]
  computeIfPresent {key old f} hget hf := by
    obtain ⟨i, hfind, hvalue⟩ := Option.map_eq_some_iff.mp hget
    have hlocate : m.locate key = .found i := Table.locate_of_find? hfind
    simp only [WordMap.computeIfPresent, hlocate, hvalue, hf]
    rfl
  compute {key f} hf := by
    have hsought := h.sought key
    have hget : m.get key = (M.get? key).getD m.missing := congrArg (·.getD m.missing) (h.get?_eq key)
    rw [WordMap.compute]
    generalize m.locate key = outcome at hsought
    cases hsought with
    | found entry present =>
        obtain rfl := eq_of_beq present.same
        rw [present.get?, Option.getD_some] at hget
        rw [hget] at hf ⊢
        simp only [h.valueAt entry, hf]
        rfl
    | vacant located absent =>
        rw [absent.get?, Option.getD_none] at hget
        rw [hget] at hf ⊢
        simp only [hf]
        rfl
  merge {key old value f} hv hget hf := by
    have hsought := h.sought key
    rw [h.get?_eq] at hget
    rw [WordMap.merge, if_neg hv]
    generalize m.locate key = outcome at hsought
    cases hsought with
    | found entry present =>
        obtain rfl := eq_of_beq present.same
        obtain rfl := Option.some.inj (present.get?.symm.trans hget)
        simp only [h.valueAt entry, hf]
        rfl
    | vacant located absent =>
        rw [absent.get?] at hget
        contradiction
  restores key value fa fp fm :=
    ⟨m.computeIfAbsent_restores key fa, m.computeIfPresent_restores key fp, m.compute_restores key fp,
      m.merge_restores key value fm⟩

theorem Represents.stopsAtPanic (h : m.Represents missing within M) :
    (scannable missing).StopsAtPanic Finds (fun p (m : WordMap κ ν) => m.eraseWhere fun k v => p (k, v))
        id m ∧
      (scannable missing).StopsAtPanic Finds (fun p (m : WordMap κ ν) => m.retain fun k v => p (k, v))
        not m := by
  have hperm : m.scanOrder.Perm m.entries := h.scanOrder_perm.trans h.entries_perm.symm
  constructor
  · exact h.sweepsAlong.stopsAtPanic hperm (fun _ => rfl) rfl fun _ => (h.eraseWhere _).state.intact
  · exact h.sweepsAlong.retain.stopsAtPanic hperm (fun _ => rfl) rfl fun _ =>
      (h.retain _).state.intact

end WordMap

/-! ### Sets -/

namespace MemberSet

variable {σ η α : Type} [MemberSlot σ α] [KeyHash η α] [BEq α]

/-- A member is found, as it is stored. -/
def Finds (s : MemberSet σ η α) (x : α) : Prop := s.get? x = some x

variable [EquivBEq α] {hashing : η} {storable : α → Unit → Prop} {within : Prop}
variable {s : MemberSet σ η α} {S : FiniteSet α}

theorem Represents.intact (h : s.Represents hashing within S) (hE : LawfulSlots σ hashing storable) :
    (scannable σ η α).Intact Finds s where
  len_eq := h.length_members.symm
  found x hx := by
    have hmem : x ∈ S.members := h.members_perm.mem_iff.mp hx
    rw [Finds, h.get?_eq hE, h.distinct.find?_eq hmem]

theorem Represents.stopsAtPanic (h : s.Represents hashing within S)
    (hE : LawfulSlots σ hashing storable) :
    (scannable σ η α).StopsAtPanic Finds (fun p s => s.retain p) not s :=
  (h.sweepsAlong hE).stopsAtPanic (h.scanOrder_perm.trans h.members_perm.symm) (fun _ => rfl) rfl
    fun p => (h.retain hE p).state.intact hE

end MemberSet

namespace WordSet

variable {α : Type} [SignedWord α] {within : Prop} {s : WordSet α} {S : FiniteSet α}

/-- A member is found. -/
def Finds (s : WordSet α) (x : α) : Prop := s.contains x = true

theorem Represents.intact (h : s.Represents within S) : (scannable α).Intact Finds s where
  len_eq := h.len_eq.trans h.members.length_eq.symm
  found x hx := by
    have hmem : x ∈ S.members := h.members.mem_iff.mp hx
    rw [Finds, h.contains_eq, FiniteSet.contains]
    exact List.contains_iff_mem.mpr hmem

theorem Represents.stopsAtPanic (h : s.Represents within S) :
    (scannable α).StopsAtPanic Finds (fun p s => s.retain p) not s :=
  h.sweepsAlong.stopsAtPanic (h.scanOrder_perm.trans h.members.symm) (fun _ => rfl) rfl
    fun p => (h.retain p).state.intact

end WordSet

/-! ### Every reachable state -/

/-- **A panic of a function of the caller** leaves every reachable container in the state that the call
defines. Some insertions may have failed to grow the table, as long as they have left a vacant slot
(`Reaches`): in a table without any, the search for an absent key never ends, and its function is not run. -/
theorem unwinding_of_run :
    (∀ {κ ν : Type} [SignedWord κ] [SignedWord ν] {config : TableConfig} {missing : ν}
        {m reached : WordMap κ ν}, WordMap.ofConfig config missing = .ok m →
      Reaches WordMap.table WordMap.Operation.perform m reached →
      reached.Unwinds ∧
        (WordMap.scannable missing).StopsAtPanic WordMap.Finds
          (fun p (m : WordMap κ ν) => m.eraseWhere fun k v => p (k, v)) id reached ∧
        (WordMap.scannable missing).StopsAtPanic WordMap.Finds
          (fun p (m : WordMap κ ν) => m.retain fun k v => p (k, v)) not reached) ∧
    (∀ {κ ν : Type} [SignedWord κ] [BEq ν] {config : TableConfig} {policy : NullPolicy}
        {m reached : WordKeyMap κ ν}, ValueMap.ofConfig config policy {} = .ok m →
      Reaches ValueMap.table ValueMap.Operation.perform m reached →
      reached.Unwinds ∧
        (ValueMap.scannable (WordSlot κ ν) Spreading κ ν).StopsAtPanic ValueMap.Finds
          (fun p m => m.eraseWhere fun k v => p (k, v)) id reached ∧
        (ValueMap.scannable (WordSlot κ ν) Spreading κ ν).StopsAtPanic ValueMap.Finds
          (fun p m => m.retain fun k v => p (k, v)) not reached) ∧
    (∀ {η κ ν : Type} [Hasher η κ] [BEq κ] [EquivBEq κ] [BEq ν] {hasher : η},
      Hasher.Lawful hasher κ → ∀ {config : TableConfig} {policy : NullPolicy}
        {m reached : KeyMap η κ ν}, ValueMap.ofConfig config policy ⟨hasher⟩ = .ok m →
      Reaches ValueMap.table ValueMap.Operation.perform m reached →
      reached.Unwinds ∧
        (ValueMap.scannable (Option (Bucket κ ν)) (Mixed η) κ ν).StopsAtPanic ValueMap.Finds
          (fun p m => m.eraseWhere fun k v => p (k, v)) id reached ∧
        (ValueMap.scannable (Option (Bucket κ ν)) (Mixed η) κ ν).StopsAtPanic ValueMap.Finds
          (fun p m => m.retain fun k v => p (k, v)) not reached) ∧
    (∀ {α : Type} [SignedWord α] {config : TableConfig} {s reached : WordSet α},
      WordSet.ofConfig config = .ok s →
      Reaches (fun s => s.inner.table) WordSet.Operation.perform s reached →
      (WordSet.scannable α).StopsAtPanic WordSet.Finds (fun p s => s.retain p) not reached) ∧
    (∀ {η α : Type} [Hasher η α] [BEq α] [EquivBEq α] {hasher : η}, Hasher.Lawful hasher α →
      ∀ {config : TableConfig} {s reached : KeySet η α}, MemberSet.ofConfig config ⟨hasher⟩ = .ok s →
      Reaches MemberSet.table MemberSet.Operation.perform s reached →
      (MemberSet.scannable (Option (HashedMember α)) (Mixed η) α).StopsAtPanic MemberSet.Finds
        (fun p s => s.retain p) not reached) := by
  refine ⟨?_, ?_, ?_, ?_, ?_⟩
  · -- each part reads the meaning that every reached container has
    intro κ ν _ _ config missing m reached hm hreached
    obtain ⟨M, hM⟩ := WordMap.exists_of_reaches hm hreached
    exact ⟨hM.unwinds, hM.stopsAtPanic⟩
  · intro κ ν _ _ config policy m reached hm hreached
    have hE : ValueMap.LawfulSlots (WordSlot κ ν) ({} : Spreading) := wordSlot_lawful {}
    obtain ⟨M, hM⟩ := ValueMap.exists_of_reaches hE hm hreached
    exact ⟨hM.unwinds hE, hM.stopsAtPanic hE⟩
  · intro η κ ν _ _ _ _ hasher hlawful config policy m reached hm hreached
    have hE : ValueMap.LawfulSlots (Option (Bucket κ ν)) (⟨hasher⟩ : Mixed η) := bucket_lawful hlawful
    obtain ⟨M, hM⟩ := ValueMap.exists_of_reaches hE hm hreached
    exact ⟨hM.unwinds hE, hM.stopsAtPanic hE⟩
  · intro α _ config s reached hs hreached
    obtain ⟨S, hS⟩ := WordSet.exists_of_reaches hs hreached
    exact hS.stopsAtPanic
  · intro η α _ _ _ hasher hlawful config s reached hs hreached
    have hE : MemberSet.LawfulSlots (Option (HashedMember α)) (⟨hasher⟩ : Mixed η) _ :=
      hashedMember_lawful hlawful
    obtain ⟨S, hS⟩ := MemberSet.exists_of_reaches hE hs hreached
    exact hS.stopsAtPanic hE

/-- Panics in the middle of runs of occupied slots. The hasher gives all keys the same hash. -/
theorem unwinding_of_run_colliding :
    let wordOps : List (WordMap.Operation Int32 Int32) := [.insert 1 10, .insert 9 90, .erase 1]
    let wordKeyOps : List (ValueMap.Operation (WordSlot Int64 Int32) Spreading Int64 Int32) :=
      [.insert 1 10, .insertNull 9, .insert 17 170, .computeIfAbsent 9 fun _ => .panics]
    let keyOps : List (ValueMap.Operation (Option (Bucket String Int32)) (Mixed HasherChoice)
        String Int32) := [.insert "a" 1, .insert "b" 2, .insert "c" 3, .insert "d" 4]
    let wordSetOps : List (WordSet.Operation Int32) := [.insert (-1), .extend [1, 2, 3], .erase 2]
    let keySetOps : List (MemberSet.Operation (Option (HashedMember String)) (Mixed HasherChoice)
        String) := [.extend ["a", "b", "c"], .take "a"]
    let hasher := HasherChoice.constant 7
    let words : WordMap Int32 Int32 := .empty (-1)
    let wordKeys : WordKeyMap Int64 Int32 := .empty .nullable {}
    let keys : KeyMap HasherChoice String Int32 := .empty .nonNull ⟨hasher⟩
    let wordSet : WordSet Int32 := .empty
    let keySet : KeySet HasherChoice String := .empty ⟨hasher⟩
    let filledWords := finalState WordMap.Operation.perform wordOps words
    let filledWordKeys := finalState ValueMap.Operation.perform wordKeyOps wordKeys
    let filledKeys := finalState ValueMap.Operation.perform keyOps keys
    let filledWordSet := finalState WordSet.Operation.perform wordSetOps wordSet
    let filledKeySet := finalState MemberSet.Operation.perform keySetOps keySet
    Hasher.Lawful hasher String ∧
      (WordMap.ofConfig {} (-1) = .ok words ∧
        NoOverflow (trace WordMap.Operation.perform wordOps words) ∧
        filledWords.compute 9 (fun _ _ => .panics) =
          .after (9, filledWords.get 9) (.fail filledWords .panicked)) ∧
      (ValueMap.ofConfig {} .nullable {} = .ok wordKeys ∧
        NoOverflow (trace ValueMap.Operation.perform wordKeyOps wordKeys) ∧
        filledWordKeys.contains 9 = true ∧
        filledWordKeys.Drops 9 (filledWordKeys.compute 9 fun _ _ => .panics)
          (filledWordKeys.compute 9 fun _ _ => .answers none)) ∧
      (ValueMap.ofConfig {} .nonNull ⟨hasher⟩ = .ok keys ∧
        NoOverflow (trace ValueMap.Operation.perform keyOps keys) ∧
        filledKeys.get? "b" = some 2 ∧
        filledKeys.Drops "b" (filledKeys.merge "b" 5 fun _ _ => .panics)
          (filledKeys.merge "b" 5 fun _ _ => .answers none)) ∧
      (WordSet.ofConfig {} = .ok wordSet ∧
        NoOverflow (trace WordSet.Operation.perform wordSetOps wordSet) ∧
        (WordSet.scannable Int32).StopsAtPanic WordSet.Finds (fun p s => s.retain p) not
          filledWordSet) ∧
      (MemberSet.ofConfig {} ⟨hasher⟩ = .ok keySet ∧
        NoOverflow (trace MemberSet.Operation.perform keySetOps keySet) ∧
        (MemberSet.scannable (Option (HashedMember String)) (Mixed HasherChoice)
          String).StopsAtPanic MemberSet.Finds (fun p s => s.retain p) not filledKeySet) := by
  intro wordOps wordKeyOps keyOps wordSetOps keySetOps hasher words wordKeys keys wordSet keySet
    filledWords filledWordKeys filledKeys filledWordSet filledKeySet
  have hlawful : Hasher.Lawful hasher String := fun a b h => by rw [eq_of_beq h]
  refine ⟨hlawful, ?_, ?_, ?_, ?_, ?_⟩
  · -- the other containers collect the keys of one home slot, so the dropped entries have followers
    have hwords : WordMap.ofConfig {} (-1) = .ok words := WordMap.ofConfig_default _
    have hno : NoOverflow (trace WordMap.Operation.perform wordOps words) := by decide +kernel
    exact ⟨hwords, hno, (unwinding_of_run.1 hwords (.run hno)).1.compute rfl⟩
  · have hwordKeys : ValueMap.ofConfig {} .nullable {} = .ok wordKeys :=
      ValueMap.ofConfig_default _ _
    have hno : NoOverflow (trace ValueMap.Operation.perform wordKeyOps wordKeys) := by decide +kernel
    have hcontains : filledWordKeys.contains 9 = true := by decide +kernel
    exact ⟨hwordKeys, hno, hcontains,
      (unwinding_of_run.2.1 hwordKeys (.run hno)).1.compute_present hcontains rfl⟩
  · have hkeys : ValueMap.ofConfig {} .nonNull ⟨hasher⟩ = .ok keys :=
      ValueMap.ofConfig_default _ _
    have hno : NoOverflow (trace ValueMap.Operation.perform keyOps keys) := by decide +kernel
    have hget : filledKeys.get? "b" = some 2 := by decide +kernel
    exact ⟨hkeys, hno, hget, (unwinding_of_run.2.2.1 hlawful hkeys (.run hno)).1.merge hget rfl⟩
  · have hwordSet : WordSet.ofConfig {} = .ok wordSet := WordSet.ofConfig_default
    have hno : NoOverflow (trace WordSet.Operation.perform wordSetOps wordSet) := by decide +kernel
    exact ⟨hwordSet, hno, unwinding_of_run.2.2.2.1 hwordSet (.run hno)⟩
  · have hkeySet : MemberSet.ofConfig {} ⟨hasher⟩ = .ok keySet := MemberSet.ofConfig_default _
    have hno : NoOverflow (trace MemberSet.Operation.perform keySetOps keySet) := by decide +kernel
    exact ⟨hkeySet, hno, unwinding_of_run.2.2.2.2 hlawful hkeySet (.run hno)⟩

end LinearProbing
