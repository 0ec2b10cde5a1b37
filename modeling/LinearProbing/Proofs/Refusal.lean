import LinearProbing.Proofs.Capacity.Containers
import LinearProbing.Proofs.Contents
import LinearProbing.Proofs.Interface.Operation

/-!
# LinearProbing.Proofs.Refusal

**What maps refuse to store.** A map of words refuses its missing value, and a map to values refuses nulls
unless its policy admits them. These are the only errors that a call on a map gives back: a panic, or a table
that cannot grow, gives back nothing. What is refused is refused as a whole, before anything has changed and
before a function of the caller is run (`RefusesExactly`).

Copying the entries of another map has to look at all of them before it stores the first one. It need not if
both maps have the same missing value, for no map holds its own (`WordMap.missing_notMem_values`); and once
the first entry is stored, no later one is refused, however often the table grows meanwhile.
-/

namespace LinearProbing

/-! ### Refusals -/

section Refusals

variable {τ ω γ α β : Type}

/-- A call is not refused, however else it ends. -/
def Unrefused (result : Except Failure α) : Prop := ∀ error, result ≠ .error (.refused error)

/-- Exactly the operations of which `refuses` holds are refused by `s`, all with one error. -/
structure RefusesExactly (perform : ω → τ → Call τ γ α) (error : TableError) (refuses : ω → Prop)
    (s : τ) : Prop where
  /-- What is refused leaves all as it is, runs no function of the caller and reports nothing. -/
  refused : ∀ op, refuses op → perform op s = .fail s (.refused error)
  served : ∀ op, ¬ refuses op → Unrefused (perform op s).result

theorem unrefused_ok (value : α) : Unrefused (.ok value) := by
  rintro error ⟨⟩

theorem unrefused_panicked : Unrefused (.error .panicked : Except Failure α) := by
  rintro error ⟨⟩

theorem unrefused_endless : Unrefused (.error .endlessSearch : Except Failure α) := by
  rintro error ⟨⟩

theorem Unrefused.map {c : Change τ α} (h : Unrefused c.result) (f : α → β) :
    Unrefused (c.map f).result :=
  fun error hrefused => h error (Change.map_eq_error_iff.mp hrefused)

/-- A function of the caller that panics ends the call, but is no refusal. -/
theorem unrefused_run {arguments : γ} {reply : Reply β} {broken : τ} {next : β → Change τ α}
    (h : ∀ value, Unrefused (next value).result) :
    Unrefused (Call.run arguments reply broken next).result := by
  cases reply with
  | panics => exact unrefused_panicked
  | answers value => exact h value

/-- Nothing in a list is refused if no step refuses anything. -/
theorem unrefused_forEach {step : τ → β → Change τ α} (h : ∀ s x, Unrefused (step s x).result)
    (l : List β) (s : τ) : Unrefused (Change.forEach step l s).result := by
  intro error hrefused
  obtain ⟨before, x, after, -, -, hfailed⟩ := Change.exists_failed hrefused
  exact h _ x error hfailed

/-- A search that never ends refuses nothing. -/
theorem unrefused_searching {probes : List Probe} {s : τ} {c : Call τ γ α} (h : Unrefused c.result) :
    Unrefused (Call.searching probes s c).result := by
  rw [Call.searching]
  split
  · exact unrefused_endless
  · exact h

/-- Showing entries to a function of the caller may end in its panic, but is not refused. -/
theorem unrefused_forEachCall (f : β → Reply Unit) (s : τ) (l : List β) :
    Unrefused (Call.forEach f s l).result := by
  induction l with
  | nil => exact unrefused_ok ()
  | cons x rest ih =>
      rw [Call.forEach]
      split
      · exact unrefused_panicked
      · exact ih

end Refusals

namespace Table

variable {σ κ ν : Type} {E : EntryLayout σ κ ν}

/-- An insertion may fail to grow the table, but never refuses an entry. -/
theorem unrefused_insertAt (t : Table σ) (index : Nat) (slot : σ) :
    Unrefused (t.insertAt E index slot).result :=
  fun _ hrefused => absurd (failure_of_insertAt hrefused) (by simp)

/-- A compaction may overflow, but refuses nothing. -/
theorem unrefused_compact (t : Table σ) : Unrefused (t.compact E).result := by
  have hcompaction := t.compaction E
  generalize t.compact E = c at hcompaction ⊢
  cases hcompaction with
  | moves | stays => exact unrefused_ok _
  | fails => exact fun _ hrefused => absurd (Except.error.inj hrefused) (by simp)

/-- A sweep ends with the panic of its predicate or with an answer. -/
theorem unrefused_sweep (selects : κ → ν → Reply Bool) (steps : Nat) (scan : Scan) (t : Table σ)
    (removed : Bool) : Unrefused (t.sweep E selects steps scan removed).result := by
  induction steps generalizing scan t removed with
  | zero => exact unrefused_ok _
  | succ steps ih =>
      unfold sweep
      split
      · exact unrefused_ok _
      split
      · exact unrefused_ok _
      split
      · exact unrefused_panicked
      · exact ih _ _ _
      · exact ih _ _ _

end Table

/-! ### Maps of words -/

namespace WordMap

variable {κ ν : Type} [SignedWord κ] [SignedWord ν] {m : WordMap κ ν} {missing : ν}

/-- The values that an operation is to store. A script of a cursor is not refused, but its writes are, one
by one. -/
def Operation.stored : Operation κ ν → List ν
  | insert _ value | insertIfAbsent _ value | replace _ value | merge _ value _ => [value]
  | replaceIf _ _ new => [new]
  | insertAll other => other.values
  | _ => []

omit [SignedWord κ] in
/-- The missing value is refused, and nothing else is done. -/
theorem checked_missing {α : Type} (m : WordMap κ ν) (next : Change (WordMap κ ν) α) :
    m.checked m.missing next = .fail m (.refused (.missingValue (wordText m.missing))) :=
  if_pos rfl

/-- What a function of the caller computes is not refused: the missing value removes an entry. -/
theorem unrefused_insertComputed (m : WordMap κ ν) (index : Nat) (key : κ) (value : ν) :
    Unrefused (m.insertComputed index key value).result := by
  unfold insertComputed
  split
  · exact unrefused_ok _
  · exact Unrefused.map (Table.unrefused_insertAt _ _ _) _

theorem unrefused_store (m : WordMap κ ν) (key : κ) (value : ν) :
    Unrefused (m.store key value).result := by
  unfold store
  split
  · exact unrefused_ok _
  · exact Unrefused.map (Table.unrefused_insertAt _ _ _) _
  · exact unrefused_endless

omit [SignedWord κ] in
/-- Any other value is checked and then stored. -/
theorem unrefused_checked {α : Type} {value : ν} {next : Change (WordMap κ ν) α}
    (hv : m.missing ≠ value) (h : Unrefused next.result) : Unrefused (m.checked value next).result := by
  rwa [checked, if_neg hv.symm]

theorem unrefused_insertIfAbsent {key : κ} {value : ν} (hv : m.missing ≠ value) :
    Unrefused (m.insertIfAbsent key value).result := by
  refine unrefused_checked hv ?_
  split
  · exact unrefused_ok _
  · exact Unrefused.map (Table.unrefused_insertAt _ _ _) _
  · exact unrefused_endless

theorem unrefused_replace {key : κ} {value : ν} (hv : m.missing ≠ value) :
    Unrefused (m.replace key value).result := by
  refine unrefused_checked hv ?_
  split
  · exact unrefused_ok _
  · exact unrefused_ok _
  · exact unrefused_endless

theorem unrefused_replaceIf {key : κ} {old new : ν} (hv : m.missing ≠ new) :
    Unrefused (m.replaceIf key old new).result := by
  refine unrefused_checked hv ?_
  split
  · split <;> exact unrefused_ok _
  · exact unrefused_ok _
  · exact unrefused_endless

/-- Copying entries none of which has the missing value is not refused. -/
theorem unrefused_insertAll {other : WordMap κ ν} (hv : m.missing ∉ other.values) :
    Unrefused (m.insertAll other).result := by
  rw [insertAll, if_neg fun hboth => hv (List.contains_iff_mem.mp hboth.2)]
  exact unrefused_forEach (fun m e => m.unrefused_store e.1 e.2) _ m

/-- A function may compute the missing value; then nothing is stored, and nothing refused. -/
theorem unrefused_computeIfAbsent (m : WordMap κ ν) (key : κ) (f : κ → Reply ν) :
    Unrefused (m.computeIfAbsent key f).result := by
  unfold computeIfAbsent
  split
  · exact unrefused_ok _
  · exact unrefused_run fun value => m.unrefused_insertComputed _ key value
  · exact unrefused_endless

theorem unrefused_computeIfPresent (m : WordMap κ ν) (key : κ) (f : κ → ν → Reply ν) :
    Unrefused (m.computeIfPresent key f).result := by
  unfold computeIfPresent
  split
  · exact unrefused_run fun _ => unrefused_ok _
  · exact unrefused_ok _
  · exact unrefused_endless

/-- Computing the missing value removes the entry. -/
theorem unrefused_compute (m : WordMap κ ν) (key : κ) (f : κ → ν → Reply ν) :
    Unrefused (m.compute key f).result := by
  unfold compute
  split
  · exact unrefused_run fun _ => unrefused_ok _
  · exact unrefused_run fun value => m.unrefused_insertComputed _ key value
  · exact unrefused_endless

/-- Only the value that is given is checked, not the one that the function makes of it. -/
theorem unrefused_merge {key : κ} {value : ν} {f : ν → ν → Reply ν} (hv : m.missing ≠ value) :
    Unrefused (m.merge key value f).result := by
  rw [merge, if_neg hv.symm]
  split
  · exact unrefused_run fun _ => unrefused_ok _
  · exact Unrefused.map (Table.unrefused_insertAt _ _ _) _
  · exact unrefused_endless

/-- **Exactly the operations that are to store the missing value are refused.** -/
theorem refusesExactly (m : WordMap κ ν) :
    RefusesExactly Operation.perform (.missingValue (wordText m.missing))
      (fun op => m.missing ∈ op.stored) m where
  refused op hstored := by
    cases op with
    | insert key value | insertIfAbsent key value | replace key value | replaceIf key old value =>
        obtain rfl := List.mem_singleton.mp hstored
        simp only [Operation.perform, WordMap.insert, WordMap.insertIfAbsent, WordMap.replace,
          WordMap.replaceIf, checked_missing]
        rfl
    | insertAll other =>
        -- no map holds its own missing value, so the other one has been looked through
        have hne : other.missing ≠ m.missing := fun heq => missing_notMem_values (heq ▸ hstored)
        rw [Operation.perform, WordMap.insertAll, if_pos ⟨hne, List.contains_iff_mem.mpr hstored⟩]
        rfl
    | merge key value f =>
        obtain rfl := List.mem_singleton.mp hstored
        rw [Operation.perform, WordMap.merge, if_pos rfl]
        rfl
    | _ => exact absurd hstored List.not_mem_nil
  served op hstored := by
    cases op with
    | insert key value =>
        exact (unrefused_checked (List.ne_of_not_mem_cons hstored) (m.unrefused_store key value)).map _
    | insertIfAbsent key value =>
        exact (unrefused_insertIfAbsent (List.ne_of_not_mem_cons hstored)).map _
    | replace key value => exact (unrefused_replace (List.ne_of_not_mem_cons hstored)).map _
    | replaceIf key old new => exact (unrefused_replaceIf (List.ne_of_not_mem_cons hstored)).map _
    | insertAll other => exact (unrefused_insertAll hstored).map _
    | merge key value f => exact (unrefused_merge (List.ne_of_not_mem_cons hstored)).map _
    | eraseWhere selects => exact Unrefused.map (Table.unrefused_sweep _ _ _ _ _) _
    | retain keeps => exact (Unrefused.map (Table.unrefused_sweep _ _ _ _ _) _).map _
    | compact => exact Unrefused.map (Table.unrefused_compact _) _
    | computeIfAbsent key f => exact (m.unrefused_computeIfAbsent key f).map _
    | computeIfPresent key f => exact (m.unrefused_computeIfPresent key f).map _
    | compute key f => exact (m.unrefused_compute key f).map _
    | forEach f => exact (unrefused_forEachCall _ m _).map _
    | get | getD | get? | contains | erase | erase? | eraseIfValue => exact unrefused_searching (unrefused_ok _)
    | containsValue | len | clear | cursor => exact unrefused_ok _

/-- The same, of a map that is known through its interface. -/
theorem refusesExactly_interface (m : WordMap κ ν) :
    RefusesExactly MapInterface.Operation.perform (.missingValue (wordText m.missing))
      (fun op => op.stores? = some m.missing) m where
  refused op hstored := by
    cases op with
    | insert key value =>
        obtain rfl := Option.some.inj hstored
        change Call.quiet (((m.insert key m.missing).map _).map _) = _
        rw [WordMap.insert, checked_missing]
        rfl
    | _ => cases hstored
  served op hstored := by
    cases op with
    | insert key value =>
        have hv : m.missing ≠ value := fun heq => hstored (congrArg some heq.symm)
        exact ((unrefused_checked hv (m.unrefused_store key value)).map _).map _
    | _ => exact unrefused_ok _

/-! ### Writing through a cursor -/

/-- Writing through a cursor is refused for one value only. The cursor then stays where it is. -/
structure Cursor.RefusesOnly (missing : ν) (c : Cursor κ ν) : Prop where
  refused : c.setValue missing = (.error (.missingValue (wordText missing)), c)
  served : ∀ value, value ≠ missing → ∃ written, (c.setValue value).1 = .ok written

/-- A cursor refuses to write the missing value, wherever it is. -/
theorem Cursor.refusesOnly (c : Cursor κ ν) : c.RefusesOnly c.missing where
  refused := if_pos rfl
  served value hv := by
    rw [setValue, if_neg hv]
    exact ⟨_, rfl⟩

/-- Whatever a cursor does, the missing value of its map stays the same. -/
theorem Cursor.missing_runScript (script : List (CursorAction ν)) (c : Cursor κ ν) :
    (CursorInterface.runScript script c).2.missing = c.missing := by
  refine CursorInterface.runScript_keeps (P := fun d : Cursor κ ν => d.missing = c.missing)
    (fun _ h => h) (fun _ h => h) (fun value d h => ?_) script c rfl
  show (d.setValue value).2.missing = c.missing
  unfold setValue
  split <;> exact h

/-! ### Copying entries -/

variable {missing' : ν} {within within' : Prop} {other : WordMap κ ν}

/-- **Copying the entries of another map gives the union of both**, in which the entries of the other map
come first. -/
theorem Represents.union (h : m.Represents missing within ⟨m.entries⟩)
    (hother : other.Represents missing' within' ⟨other.entries⟩) (hmem : missing ∉ other.values)
    (hno : (m.insertAll other).result ≠ .error .capacityOverflow) :
    (m.insertAll other).result = .ok () ∧
      (∀ key, (m.insertAll other).state.get? key = (other.get? key).or (m.get? key)) ∧
      (m.insertAll other).state.entries.Perm
        (other.entries ++ m.entries.filter fun e => ! other.contains e.1) := by
  have hdistinct : (⟨m.entries⟩ : FiniteMap κ ν).Distinct := h.table.distinct
  -- the specified copy is an insertion of all entries, as none of them is missing
  have htracks : Changes missing within (m.insertAll other)
      (Spec.insertAll missing ⟨m.entries⟩ other.entries) := h.insertAll
  rw [Spec.insertAll, if_neg (show ¬ missing ∈ other.entries.map Prod.snd from hmem)] at htracks
  obtain ⟨hresult, -, hstate⟩ := htracks.resolve_right fun hoverflow => hno hoverflow.1
  refine ⟨hresult, fun key => ?_, ?_⟩
  · rw [hstate.get?_eq, h.get?_eq, hother.get?_eq]
    exact FiniteMap.get?_foldl_insert hother.table.distinct _ key
  · simp only [WordMap.contains, hother.get?_eq, ← FiniteMap.contains_eq]
    exact hstate.entries_perm.trans (hdistinct.foldl_insert_perm_append hother.table.distinct)

/-- A map of the default configuration overflows only if more entries are stored than fill the greatest
table. -/
theorem threshold_lt_of_overflow {l : List (κ × ν)} (hl : (⟨l⟩ : FiniteMap κ ν).Distinct)
    (hmem : missing ∉ l.map Prod.snd)
    (hoverflow : (Change.forEach (fun m e => m.store e.1 e.2) l (empty missing : WordMap κ ν)).result =
      .error .capacityOverflow) :
    threshold maxCapacity defaultLoadFactor < l.length := by
  obtain ⟨before, e, after, rfl, hbefore, hfailed⟩ := Change.exists_failed hoverflow
  have hempty : (empty missing : WordMap κ ν).Represents missing True {} :=
    represents_ofSizing Sizing.valid_standard .cached
  have hfits : (empty missing : WordMap κ ν).table.Fits :=
    Table.fits_ofSizing Sizing.valid_standard .cached
  -- those stored before are all there is, and they fill the table
  have hnot : missing ∉ before.map Prod.snd := fun h => hmem (by simp [h])
  have hdistinct : (⟨before⟩ : FiniteMap κ ν).Distinct := (List.pairwise_append.mp hl).1
  have hlen : (Change.forEach (fun m e => m.store e.1 e.2) before (empty missing)).state.table.len =
      before.length := by
    obtain ⟨-, -, hstate⟩ := (hempty.storeAll hnot).resolve_right fun hover =>
      absurd (hbefore.symm.trans hover.1) (by simp)
    exact hstate.table.len_eq_length.trans (FiniteMap.ofList_perm hdistinct).length_eq
  have hgains : (Change.forEach (fun m e => m.store e.1 e.2) before (empty missing)).Gains table
      (empty missing) := Change.gains_forEach (fun m e hm => gains_store hm e.1 e.2) before hfits
  obtain hover | ⟨-, hgains⟩ := hgains
  · exact absurd (hbefore.symm.trans hover) (by simp)
  · have hfull := len_eq_of_store hgains.fits hfailed
    rw [hlen, hgains.loadFactor] at hfull
    rw [List.length_append, hfull]
    exact Nat.lt_add_of_pos_right (Nat.succ_pos _)

/-! ### Maps that are reached, and new ones -/

/-- What a map with a missing value refuses, and what it does otherwise. -/
structure StoresAllBut (missing : ν) (m : WordMap κ ν) : Prop where
  /-- Exactly the operations that are to store the missing value are refused. -/
  operations : RefusesExactly Operation.perform (.missingValue (wordText missing))
    (fun op => missing ∈ op.stored) m
  /-- So are they through the interface of all maps. -/
  interface : RefusesExactly MapInterface.Operation.perform (.missingValue (wordText missing))
    (fun op => op.stores? = some missing) m
  /-- So is writing through a cursor, wherever it is. -/
  cursor : ∀ script, Cursor.RefusesOnly missing (CursorInterface.runScript script m.openCursor).2
  /-- What is not refused returns, unless a function of the caller panics or the table cannot grow. -/
  returns : ∀ op : Operation κ ν, missing ∉ op.stored →
    (∃ answer, (op.perform m).result = .ok answer) ∨ (op.perform m).result = .error .panicked ∨
      (op.perform m).result = .error .capacityOverflow
  /-- Copying the entries of another map gives the union of both, in which those of the other map come
  first. The other map is any that is reached, with a missing value of its own. -/
  union : ∀ other : WordMap κ ν, other.Reachable → missing ∉ other.values →
    (m.insertAll other).result ≠ .error .capacityOverflow →
      (m.insertAll other).result = .ok () ∧
        (∀ key, (m.insertAll other).state.get? key = (other.get? key).or (m.get? key)) ∧
        (m.insertAll other).state.entries.Perm
          (other.entries ++ m.entries.filter fun e => ! other.contains e.1)

/-- **A map that stands for its entries stores all but the missing value.** -/
theorem Represents.storesAllBut (h : m.Represents missing False ⟨m.entries⟩) :
    m.StoresAllBut missing where
  operations := h.missing_eq ▸ m.refusesExactly
  interface := h.missing_eq ▸ m.refusesExactly_interface
  cursor script := by
    -- scripts change the table under a cursor, but not what is missing
    have hmissing := Cursor.missing_runScript script m.openCursor
    rw [← h.missing_eq, show m.missing = m.openCursor.missing from rfl, ← hmissing]
    exact Cursor.refusesOnly _
  returns op hstored := by
    have hserved : Unrefused (op.perform m).result :=
      m.refusesExactly.served op (h.missing_eq.symm ▸ hstored)
    have hends := ((WordMap.probing missing).outcome (inlineLayout_lawful missing) h op).ends
    cases hresult : (op.perform m).result with
    | ok answer => exact Or.inl ⟨answer, rfl⟩
    | error failure =>
        -- of the four failures, only two are left
        cases failure with
        | refused error => exact absurd hresult (hserved error)
        | panicked => exact Or.inr (Or.inl rfl)
        | capacityOverflow => exact Or.inr (Or.inr rfl)
        | endlessSearch => exact absurd hresult hends
  union other hother hmem hno := by
    obtain ⟨missing', hother⟩ := hother.represents
    exact h.union hother hmem hno

/-- What becomes of a list of entries of which a map is to be made: minus one is its missing value. -/
structure MadeOf (entries : List (κ × ν)) : Prop where
  refused : SignedWord.minusOne ∈ entries.map Prod.snd →
    (ofEntries entries).result = .error (.refused (.missingValue (wordText (SignedWord.minusOne : ν))))
  /-- Only more entries than fill the greatest table cannot be stored. -/
  made : SignedWord.minusOne ∉ entries.map Prod.snd →
    ((ofEntries entries).result = .ok () ∧ (ofEntries entries).state.missing = SignedWord.minusOne ∧
        (ofEntries entries).state.entries.Perm entries) ∨
      ((ofEntries entries).result = .error .capacityOverflow ∧
        threshold maxCapacity defaultLoadFactor < entries.length)

/-- **A map is made of any entries with distinct keys** of which none has its missing value. -/
theorem madeOf_of_distinct {entries : List (κ × ν)}
    (h : (⟨entries⟩ : FiniteMap κ ν).Distinct) : MadeOf entries where
  refused hmem := by
    have hrefused : ofEntries entries = .fail (empty SignedWord.minusOne)
        (.refused (.missingValue (wordText SignedWord.minusOne))) :=
      if_pos (List.contains_iff_mem.mpr hmem)
    rw [hrefused]
    rfl
  made hmem := by
    have hempty : (empty SignedWord.minusOne : WordMap κ ν).Represents SignedWord.minusOne True {} :=
      represents_ofSizing Sizing.valid_standard .cached
    have hstored : ofEntries entries =
        Change.forEach (fun m e => m.store e.1 e.2) entries (empty SignedWord.minusOne) :=
      if_neg fun hcontains => hmem (List.contains_iff_mem.mp hcontains)
    rw [hstored]
    -- entries are stored up to the first for which there is no room
    obtain ⟨hresult, -, hstate⟩ | ⟨hoverflow, -⟩ := hempty.storeAll hmem
    · exact Or.inl ⟨hresult, hstate.missing_eq,
        hstate.entries_perm.trans (FiniteMap.ofList_perm h)⟩
    · exact Or.inr ⟨hoverflow, threshold_lt_of_overflow h hmem hoverflow⟩

end WordMap

/-! ### Maps to values that may be null -/

namespace ValueMap

variable {σ η κ ν : Type} [EntrySlot σ κ ν]

theorem unrefused_insertValueAt (m : ValueMap σ η κ ν) (index : Nat) (hash : UInt64) (key : κ)
    (value : ν) : Unrefused (m.insertValueAt index hash key value).result := by
  rw [insertValueAt, Change.andThen_done]
  exact Unrefused.map (Table.unrefused_insertAt _ _ _) _

/-- A null that was computed removes the entry, and is not refused. -/
theorem unrefused_settle (m : ValueMap σ η κ ν) (index : Nat) (hash : UInt64) (key : κ)
    (computed : Option ν) : Unrefused (m.settle index hash key computed).result := by
  cases computed <;> exact unrefused_ok _

variable [KeyHash η κ] [BEq κ] {m : ValueMap σ η κ ν}

theorem unrefused_store (m : ValueMap σ η κ ν) (key : κ) (stored : Option ν) :
    Unrefused (m.store key stored).result := by
  unfold store
  split
  · exact unrefused_ok _
  · exact Unrefused.map (Table.unrefused_insertAt _ _ _) _
  · exact unrefused_endless

/-- A map that admits nulls stores them. -/
theorem unrefused_insertNull (h : m.policy = .nullable) (key : κ) :
    Unrefused (m.insertNull key).result := by
  rw [insertNull, h]
  exact m.unrefused_store key none

theorem unrefused_insertIfAbsent (m : ValueMap σ η κ ν) (key : κ) (value : ν) :
    Unrefused (m.insertIfAbsent key value).result := by
  unfold insertIfAbsent
  split
  · split <;> exact unrefused_ok _
  · exact Unrefused.map (Table.unrefused_insertAt _ _ _) _
  · exact unrefused_endless

theorem unrefused_computeIfAbsent (m : ValueMap σ η κ ν) (key : κ) (f : κ → Reply (Option ν)) :
    Unrefused (m.computeIfAbsent key f).result := by
  unfold computeIfAbsent
  split
  · split
    · exact unrefused_ok _
    · exact unrefused_run fun computed => by cases computed <;> exact unrefused_ok _
  · refine unrefused_run fun computed => ?_
    cases computed with
    | none => exact unrefused_ok _
    | some value => exact m.unrefused_insertValueAt _ _ key value
  · exact unrefused_endless

theorem unrefused_computeIfPresent (m : ValueMap σ η κ ν) (key : κ)
    (f : κ → ν → Reply (Option ν)) : Unrefused (m.computeIfPresent key f).result := by
  unfold computeIfPresent
  split
  · split
    · exact unrefused_ok _
    · exact unrefused_ok _
    · exact unrefused_run fun computed => unrefused_settle _ _ _ _ computed
  · exact unrefused_ok _
  · exact unrefused_endless

theorem unrefused_compute (m : ValueMap σ η κ ν) (key : κ) (f : κ → Option ν → Reply (Option ν)) :
    Unrefused (m.compute key f).result := by
  unfold compute
  split
  · exact unrefused_run fun computed => unrefused_settle _ _ _ _ computed
  · refine unrefused_run fun computed => ?_
    cases computed with
    | none => exact unrefused_ok _
    | some value => exact m.unrefused_insertValueAt _ _ key value
  · exact unrefused_endless

theorem unrefused_merge (m : ValueMap σ η κ ν) (key : κ) (value : ν)
    (f : ν → ν → Reply (Option ν)) : Unrefused (m.merge key value f).result := by
  unfold merge
  split
  · dsimp only
    split
    · exact unrefused_run fun computed => unrefused_settle _ _ _ _ computed
    · exact unrefused_settle _ _ _ _ _
  · exact m.unrefused_insertValueAt _ _ key value
  · exact unrefused_endless

/-- **Only storing a null is refused**, and only by a map that holds none. -/
theorem refusesExactly [BEq ν] (m : ValueMap σ η κ ν) :
    RefusesExactly Operation.perform .nullValue
      (fun op => m.policy = .nonNull ∧ ∃ key, op = .insertNull key) m where
  refused := by
    rintro _ ⟨hpolicy, key, rfl⟩
    rw [Operation.perform, insertNull, hpolicy]
    rfl
  served op hop := by
    cases op with
    | insert key value => exact (m.unrefused_store key (some value)).map _
    -- the only operation that is to store a null
    | insertNull key =>
        cases hpolicy : m.policy with
        | nonNull => exact absurd ⟨hpolicy, key, rfl⟩ hop
        | nullable => exact (unrefused_insertNull hpolicy key).map _
    | insertIfAbsent key value => exact (m.unrefused_insertIfAbsent key value).map _
    | insertAll other => exact (unrefused_forEach (fun m e => m.unrefused_store e.1 e.2) _ m).map _
    | extend entries => exact (unrefused_forEach (fun m e => m.unrefused_store e.1 (some e.2)) _ m).map _
    | eraseWhere selects => exact Unrefused.map (Table.unrefused_sweep _ _ _ _ _) _
    | retain keeps => exact (Unrefused.map (Table.unrefused_sweep _ _ _ _ _) _).map _
    | compact => exact Unrefused.map (Table.unrefused_compact _) _
    | computeIfAbsent key f => exact (m.unrefused_computeIfAbsent key f).map _
    | computeIfPresent key f => exact (m.unrefused_computeIfPresent key f).map _
    | compute key f => exact (m.unrefused_compute key f).map _
    | merge key value f => exact (m.unrefused_merge key value f).map _
    | forEach f => exact (unrefused_forEachCall _ m _).map _
    | get? | contains | replace | replaceIf | modify | erase | eraseEntry | eraseIfValue =>
        exact unrefused_searching (unrefused_ok _)
    | containsValue | len | clear | copy | cursor => exact unrefused_ok _

/-- Through the interface of all maps, nothing is refused. -/
theorem unrefused_interface (m : ValueMap σ η κ ν) (op : MapInterface.Operation κ ν) :
    Unrefused (op.perform m).result := by
  cases op with
  | insert key value => exact (m.unrefused_store key (some value)).map _
  | _ => exact unrefused_ok _

end ValueMap

/-! ### All maps -/

/-- **Stores fail exactly when they must, and then change nothing.** A map of words that is reached refuses
its missing value and nothing else, and a copy that is not refused gives the union; a new map is made of all
entries but those with its missing value; and a map to values refuses nulls only. -/
theorem refusesExactly_of_reaches :
    (∀ {κ ν : Type} [SignedWord κ] [SignedWord ν] {config : TableConfig} {missing : ν}
        {new m : WordMap κ ν}, WordMap.ofConfig config missing = .ok new →
      Reaches WordMap.table WordMap.Operation.perform new m → m.StoresAllBut missing) ∧
    (∀ {κ ν : Type} [SignedWord κ] [SignedWord ν] {entries : List (κ × ν)},
      (⟨entries⟩ : FiniteMap κ ν).Distinct → WordMap.MadeOf entries) ∧
    (∀ {σ η κ ν : Type} [EntrySlot σ κ ν] [KeyHash η κ] [BEq κ] [BEq ν] (m : ValueMap σ η κ ν),
      RefusesExactly ValueMap.Operation.perform .nullValue
          (fun op => m.policy = .nonNull ∧ ∃ key, op = .insertNull key) m ∧
        ∀ op : MapInterface.Operation κ ν, Unrefused (op.perform m).result) := by
  refine ⟨?_, ?_, ?_⟩
  · intro κ ν _ _ config missing new m hnew hreached
    obtain ⟨M, hM⟩ := WordMap.exists_of_reaches hnew hreached
    have hm : m.Represents missing False ⟨m.entries⟩ :=
      ⟨hM.missing_eq, hM.table.perm hM.entries_perm.symm⟩
    exact hm.storesAllBut
  · intro κ ν _ _ entries hdistinct
    exact WordMap.madeOf_of_distinct hdistinct
  · intro σ η κ ν _ _ _ _ m
    exact ⟨m.refusesExactly, m.unrefused_interface⟩

/-- Copies between maps of different load factors and missing values, one that is refused for its last entry
and one that grows the map. -/
theorem refusesExactly_of_reaches_growing :
    let sparse : TableConfig := { loadFactor := ⟨0x3c800000⟩ }
    let new : WordMap Int32 Int32 := .empty (-1)
    let words := finalState WordMap.Operation.perform [.insert 1 10, .insert 9 90, .cursor [.next]] new
    let newSparse : WordMap Int32 Int32 := .ofSizing (.ofCapacity 8 sparse.loadFactor) .cached 0
    let ops : List (WordMap.Operation Int32 Int32) :=
      [.insert 1 11, .insert 2 20, .insert 3 30, .insert 4 40, .insert 5 50]
    let others := finalState WordMap.Operation.perform ops newSparse
    let clashing := finalState WordMap.Operation.perform (ops ++ [.insert 17 (-1)]) newSparse
    let plain : List (Int32 × Int32) := [(1, 10), (-1, 20)]
    (WordMap.ofConfig {} (-1) = .ok new ∧ words.StoresAllBut (-1)) ∧
      (WordMap.Operation.insertAll clashing).perform words =
        .fail words (.refused (.missingValue (wordText (-1 : Int32)))) ∧
      (others.Reachable ∧ (words.insertAll others).result = .ok () ∧
        words.capacity < (words.insertAll others).state.capacity ∧
        ∀ key, (words.insertAll others).state.get? key = (others.get? key).or (words.get? key)) ∧
      (WordMap.ofEntries plain).state.entries.Perm plain := by
  intro sparse new words newSparse ops others clashing plain
  have hnew : WordMap.ofConfig {} (-1) = .ok new := WordMap.ofConfig_default _
  have hsparse : Sizing.ofConfig sparse = .ok (.ofCapacity 8 sparse.loadFactor) := by decide +kernel
  have hwords := refusesExactly_of_reaches.1 hnew (.run (by decide +kernel) : Reaches _ _ new words)
  have hothers : others.Reachable :=
    ⟨sparse, 0, newSparse, by rw [WordMap.ofConfig, hsparse]; rfl, .run (by decide +kernel)⟩
  obtain ⟨hresult, hunion, -⟩ := hwords.union others hothers (by decide +kernel) (by decide +kernel)
  have hplain := refusesExactly_of_reaches.2.1 (show (⟨plain⟩ : FiniteMap Int32 Int32).Distinct by decide)
  obtain ⟨-, -, hperm⟩ | ⟨-, hlt⟩ := hplain.made (by decide)
  · exact ⟨⟨hnew, hwords⟩, hwords.operations.refused _ (by decide +kernel),
      ⟨hothers, hresult, by decide +kernel, hunion⟩, hperm⟩
  · exact absurd hlt (by decide +kernel)

end LinearProbing
