import LinearProbing.Proofs.IterationMode.Table
import LinearProbing.Proofs.PairMap.Operation
import LinearProbing.Proofs.Tally.Operation

/-!
# LinearProbing.Proofs.IterationMode.Maps

**The iteration mode of a map does not show.** Every operation on a map does the same to one without its mode
and without what a cursor has left in it (`perform_bare`). Only operations with a cursor need an argument of
their own: their cursors are twins.
-/

namespace LinearProbing

/-! ### Maps of words -/

namespace WordMap

variable {κ ν : Type}

/-- A map without its iteration mode, and without what a cursor has left in it. -/
def bare (m : WordMap κ ν) : WordMap κ ν := { m with table := m.table.bare }

/-- An operation that is given other maps without theirs. -/
def Operation.bare : Operation κ ν → Operation κ ν
  | insertAll other => insertAll other.bare
  | op => op

variable [SignedWord κ] [SignedWord ν] (m : WordMap κ ν)

/-- Searches look at the slots only. -/
theorem locate_bare (key : κ) : m.bare.locate key = m.locate key := rfl

theorem find?_bare (key : κ) : m.bare.find? key = m.find? key := rfl

/-- An insertion into a slot carries the mode along, also when the table grows. -/
theorem insertAt_bare (index : Nat) (key : κ) (value : ν) :
    m.bare.insertAt index key value = (m.insertAt index key value).within bare :=
  congrArg (Change.within (WordMap.mk m.missing))
    (m.table.insertAt_bare m.layout index (m.layout.occupy (SignedWord.spread key) key value))

omit [SignedWord κ] in
/-- A refusal does not depend on the mode. -/
theorem checked_bare {α : Type} (value : ν) (next : Change (WordMap κ ν) α) :
    m.bare.checked value (next.within bare) = (m.checked value next).within bare := by
  unfold checked
  exact (apply_ite (Change.within bare) (value = m.missing) (.fail m (.refused m.refusal)) next).symm

/-- Storing does the same whatever the mode, and keeps it. -/
theorem store_bare (key : κ) (value : ν) :
    m.bare.store key value = (m.store key value).within bare := by
  unfold store
  rw [m.locate_bare]
  cases m.locate key with
  | found | endless => rfl
  | vacant index => exact congrArg (Change.map fun _ => m.missing) (m.insertAt_bare index key value)

theorem insert_bare (key : κ) (value : ν) : m.bare.insert key value = (m.insert key value).within bare := by
  rw [insert, store_bare, checked_bare, insert]

/-- An insertion that leaves a present value alone does the same whatever the mode. -/
theorem insertIfAbsent_bare (key : κ) (value : ν) :
    m.bare.insertIfAbsent key value = (m.insertIfAbsent key value).within bare := by
  unfold insertIfAbsent
  rw [m.locate_bare, ← checked_bare]
  refine congrArg (m.bare.checked value) ?_
  cases m.locate key with
  | found | endless => rfl
  | vacant index => exact congrArg (Change.map fun _ => m.missing) (m.insertAt_bare index key value)

theorem replace_bare (key : κ) (value : ν) :
    m.bare.replace key value = (m.replace key value).within bare := by
  unfold replace
  rw [m.locate_bare, ← checked_bare]
  refine congrArg (m.bare.checked value) ?_
  cases m.locate key <;> rfl

/-- A conditional replacement does the same whatever the mode. -/
theorem replaceIf_bare (key : κ) (old new : ν) :
    m.bare.replaceIf key old new = (m.replaceIf key old new).within bare := by
  unfold replaceIf
  rw [m.locate_bare, ← checked_bare]
  refine congrArg (m.bare.checked new) ?_
  cases m.locate key with
  | vacant | endless => rfl
  | found index =>
      dsimp only
      rw [apply_ite (Change.within bare)]
      rfl

/-- Neither the mode of the map nor that of the map that is copied matters. -/
theorem insertAll_bare (other : WordMap κ ν) :
    m.bare.insertAll other.bare = (m.insertAll other).within bare := by
  have hcopied : Change.forEach (fun m (e : κ × ν) => m.store e.1 e.2) other.entries m.bare =
      (Change.forEach (fun m (e : κ × ν) => m.store e.1 e.2) other.entries m).within bare :=
    Change.within_forEach (fun m e => store_bare m e.1 e.2) other.entries m
  unfold insertAll
  rw [apply_ite (Change.within bare), ← hcopied]
  rfl

/-- A removal closes the same gap whatever the mode. -/
theorem erase?_bare (key : κ) : m.bare.erase? key = (m.erase? key).map id bare := by
  unfold erase?
  rw [m.find?_bare]
  cases m.find? key <;> rfl

theorem eraseIfValue_bare (key : κ) (value : ν) :
    m.bare.eraseIfValue key value = (m.eraseIfValue key value).map id bare := by
  unfold eraseIfValue
  rw [m.find?_bare]
  cases m.find? key with
  | none => rfl
  | some index =>
      dsimp only
      rw [apply_ite (Prod.map id bare)]
      rfl

/-- A sweep has a scan of its own, and leaves the one in the table alone. -/
theorem eraseWhere_bare (selects : κ → ν → Reply Bool) :
    m.bare.eraseWhere selects = (m.eraseWhere selects).within bare :=
  congrArg (Call.within (WordMap.mk m.missing)) (Table.eraseWhere_bare m.layout selects m.table)

/-- Entries are shown in slot order, whatever the mode. -/
theorem forEach_bare (f : κ → ν → Reply Unit) : m.bare.forEach f = (m.forEach f).within bare :=
  Call.forEach_bare (fun e : κ × ν => f e.1 e.2) m m.entries

/-- Clearing a map forgets the scan in its table. -/
theorem clear_bare : m.bare.clear = m.clear.bare :=
  congrArg (WordMap.mk m.missing) (Table.clearWith_bare (fun _ => m.layout.empty) m.table)

theorem compact_bare : m.bare.compact = m.compact.within bare :=
  congrArg (Change.within (WordMap.mk m.missing)) (Table.compact_bare m.layout m.table)

theorem insertComputed_bare (index : Nat) (key : κ) (value : ν) :
    m.bare.insertComputed index key value = (m.insertComputed index key value).within bare := by
  unfold insertComputed
  rw [m.insertAt_bare, apply_ite (Change.within bare)]
  rfl

/-- An update of a slot removes the entry or overwrites its value, whatever the mode. -/
theorem updateAt_bare (index : Nat) (value : ν) : m.bare.updateAt index value = (m.updateAt index value).bare :=
  (apply_ite bare (value = m.missing) (m.eraseAt index) (m.setValueAt index value)).symm

/-- The function is asked for the same keys whatever the mode. -/
theorem computeIfAbsent_bare (key : κ) (f : κ → Reply ν) :
    m.bare.computeIfAbsent key f = (m.computeIfAbsent key f).within bare := by
  unfold computeIfAbsent
  rw [m.locate_bare]
  cases m.locate key with
  | found | endless => rfl
  | vacant index =>
      exact Call.run_bare rfl fun value => m.insertComputed_bare index key value

/-- The value is computed anew in the same slot whatever the mode. -/
theorem computeIfPresent_bare (key : κ) (f : κ → ν → Reply ν) :
    m.bare.computeIfPresent key f = (m.computeIfPresent key f).within bare := by
  unfold computeIfPresent
  rw [m.locate_bare]
  cases m.locate key with
  | vacant | endless => rfl
  | found index =>
      exact Call.run_bare rfl fun value => congrArg (Change.done · value) (m.updateAt_bare index value)

theorem compute_bare (key : κ) (f : κ → ν → Reply ν) :
    m.bare.compute key f = (m.compute key f).within bare := by
  unfold compute
  rw [m.locate_bare]
  cases m.locate key with
  | endless => rfl
  | found index =>
      exact Call.run_bare rfl fun value => congrArg (Change.done · value) (m.updateAt_bare index value)
  | vacant index =>
      exact Call.run_bare rfl fun value => m.insertComputed_bare index key value

/-- The function is asked to combine the same values whatever the mode. -/
theorem merge_bare (key : κ) (value : ν) (f : ν → ν → Reply ν) :
    m.bare.merge key value f = (m.merge key value f).within bare := by
  unfold merge
  rw [apply_ite (Call.within bare), m.locate_bare]
  refine congrArg (ite _ _) ?_
  cases m.locate key with
  | endless => rfl
  | found index =>
      exact Call.run_bare rfl fun combined =>
        congrArg (Change.done · combined) (m.updateAt_bare index combined)
  | vacant index =>
      exact congrArg (fun c => Call.quiet (c.map fun _ => value)) (m.insertAt_bare index key value)

/-- Two cursors of maps that are the same but for where the state of a scan is kept. -/
structure Cursor.Twin (c d : Cursor κ ν) : Prop where
  missing : c.missing = d.missing
  inner : c.inner.Twin d.inner

omit [SignedWord κ] [SignedWord ν] in
/-- Cursors that agree up to the mode are on maps that do. -/
theorem Cursor.Twin.map {c d : Cursor κ ν} (h : c.Twin d) : c.map.bare = d.map.bare :=
  congrArg₂ WordMap.mk h.missing h.inner.table

/-- Every step of a cursor answers the same whatever the mode, although the scan is kept in different places. -/
theorem follows_twin : CursorInterface.Follows (Cursor.Twin (κ := κ) (ν := ν)) where
  next {c d} h := by
    obtain ⟨missing, inner⟩ := c
    obtain ⟨rfl, hinner⟩ := h
    obtain ⟨hanswer, hnext⟩ := hinner.next (E := inlineLayout d.missing)
    exact ⟨hanswer, rfl, hnext⟩
  remove {c d} h := by
    obtain ⟨missing, inner⟩ := c
    obtain ⟨rfl, hinner⟩ := h
    obtain ⟨hanswer, hremoved⟩ := hinner.remove (E := inlineLayout d.missing)
    exact ⟨hanswer, rfl, hremoved⟩
  write value {c d} h := by
    obtain ⟨missing, inner⟩ := c
    obtain ⟨rfl, hinner⟩ := h
    obtain ⟨hanswer, hwritten⟩ := hinner.writeCurrent (E := inlineLayout d.missing) fun s => (s.1, value)
    change (Cursor.setValue ⟨d.missing, inner⟩ value).1 = (d.setValue value).1 ∧
      (Cursor.setValue ⟨d.missing, inner⟩ value).2.Twin (d.setValue value).2
    unfold Cursor.setValue
    -- the missing value is refused before the table is written to
    by_cases hmissing : value = d.missing
    · rw [if_pos hmissing, if_pos hmissing]
      exact ⟨rfl, rfl, hinner⟩
    · rw [if_neg hmissing, if_neg hmissing]
      exact ⟨congrArg Except.ok hanswer, rfl, hwritten⟩

/-- **An operation does the same without the mode of the map**, and without what a cursor has left in it. -/
theorem Operation.perform_bare (op : Operation κ ν) (m : WordMap κ ν) :
    (op.bare.perform m.bare).within WordMap.bare = (op.perform m).within WordMap.bare := by
  cases op with
  | get | getD | get? | contains =>
      -- what is read from a slot is the same, so only the search is to be rewritten
      simp only [Operation.bare, perform, Call.within_searching, locate_bare]
      rfl
  | containsValue | len => rfl
  | insert | insertIfAbsent | replace | replaceIf =>
      simp only [Operation.bare, perform, insert_bare, insertIfAbsent_bare, replace_bare, replaceIf_bare]
      rfl
  | insertAll other =>
      rw [Operation.bare, perform, insertAll_bare]
      rfl
  | erase key | erase? key | eraseIfValue key value =>
      simp only [Operation.bare, perform, Call.within_searching, locate_bare, WordMap.erase, erase?_bare,
        eraseIfValue_bare]
      rfl
  | eraseWhere | retain | forEach | clear | compact =>
      simp only [Operation.bare, perform, WordMap.retain, eraseWhere_bare, forEach_bare, clear_bare,
        compact_bare]
      rfl
  | computeIfAbsent | computeIfPresent | compute | merge =>
      simp only [Operation.bare, perform, computeIfAbsent_bare, computeIfPresent_bare, compute_bare,
        merge_bare]
      rfl
  | cursor script =>
      -- a cursor runs on a table with a scan inside; its twin carries the scan itself
      have htable : m.bare.table.bare = m.table.bare := rfl
      have htwin : m.bare.openCursor.Twin m.openCursor := ⟨rfl, Table.Cursor.twin_openCursor htable⟩
      obtain ⟨hanswers, hclosed⟩ := follows_twin.runScript script htwin
      simp only [Operation.bare, perform, hanswers]
      exact congrArg (Call.done · _) hclosed.map

end WordMap

/-! ### Maps to values that may be null -/

namespace ValueMap

variable {σ η κ ν : Type}

/-- A map without its iteration mode, and without what a cursor has left in it. -/
def bare (m : ValueMap σ η κ ν) : ValueMap σ η κ ν := m.withTable m.table.bare

/-- An operation that is given other maps without theirs. -/
def Operation.bare : Operation σ η κ ν → Operation σ η κ ν
  | insertAll other => insertAll other.bare
  | op => op

section Slots

variable [EntrySlot σ κ ν] (m : ValueMap σ η κ ν)

/-- A value is written into the same slot whatever the mode. -/
theorem setStoredAt_bare (index : Nat) (stored : Option ν) :
    m.bare.setStoredAt index stored = (m.setStoredAt index stored).bare := by
  have hentryAt : m.bare.table.entryAt? m.layout = m.table.entryAt? m.layout := rfl
  unfold setStoredAt
  rw [hentryAt]
  cases m.table.entryAt? m.layout index <;> rfl

theorem valueAt?_bare (index : Nat) : m.bare.valueAt? index = m.valueAt? index := rfl

theorem insertAt_bare (index : Nat) (hash : UInt64) (key : κ) (stored : Option ν) :
    m.bare.insertAt index hash key stored = (m.insertAt index hash key stored).within bare :=
  congrArg (Change.within m.withTable)
    (m.table.insertAt_bare m.layout index (m.layout.occupy hash key stored))

theorem insertValueAt_bare (index : Nat) (hash : UInt64) (key : κ) (value : ν) :
    m.bare.insertValueAt index hash key value = (m.insertValueAt index hash key value).within bare := by
  unfold insertValueAt
  rw [m.insertAt_bare]
  exact Change.within_andThen _ fun _ _ => rfl

/-- An entry that was taken out is put back or removed, whatever the mode. -/
theorem settle_bare (index : Nat) (hash : UInt64) (key : κ) (value : Option ν) :
    m.bare.settle index hash key value = (m.settle index hash key value).within bare := by
  cases value <;> rfl

theorem eraseWhere_bare (selects : κ → Option ν → Reply Bool) :
    m.bare.eraseWhere selects = (m.eraseWhere selects).within bare :=
  congrArg (Call.within m.withTable) (Table.eraseWhere_bare m.layout selects m.table)

theorem forEach_bare (f : κ → Option ν → Reply Unit) : m.bare.forEach f = (m.forEach f).within bare :=
  Call.forEach_bare (fun e : κ × Option ν => f e.1 e.2) m m.entries

theorem clear_bare : m.bare.clear = m.clear.bare :=
  congrArg m.withTable (Table.clearWith_bare m.layout.leave m.table)

theorem compact_bare : m.bare.compact = m.compact.within bare :=
  congrArg (Change.within m.withTable) (Table.compact_bare m.layout m.table)

end Slots

section Keys

variable [EntrySlot σ κ ν] [KeyHash η κ] [BEq κ] (m : ValueMap σ η κ ν)

theorem locate_bare (key : κ) : m.bare.locate key = m.locate key := rfl

theorem find?_bare (key : κ) : m.bare.find? key = m.find? key := rfl

theorem store_bare (key : κ) (stored : Option ν) :
    m.bare.store key stored = (m.store key stored).within bare := by
  unfold store
  rw [m.locate_bare]
  cases m.locate key with
  | found index => exact congrArg (Change.done · (m.valueAt? index)) (m.setStoredAt_bare index stored)
  | vacant index =>
      exact congrArg (Change.map fun _ => none) (m.insertAt_bare index (m.hashOf key) key stored)
  | endless => rfl

/-- The null policy decides before the table is looked at. -/
theorem insertNull_bare (key : κ) : m.bare.insertNull key = (m.insertNull key).within bare := by
  have hpolicy : m.bare.policy = m.policy := rfl
  unfold insertNull
  rw [hpolicy, store_bare]
  cases m.policy <;> rfl

theorem insertIfAbsent_bare (key : κ) (value : ν) :
    m.bare.insertIfAbsent key value = (m.insertIfAbsent key value).within bare := by
  unfold insertIfAbsent
  rw [m.locate_bare]
  cases m.locate key with
  | found index =>
      dsimp only
      rw [m.valueAt?_bare]
      -- a null under the key counts as absent
      cases m.valueAt? index with
      | some old => rfl
      | none => exact congrArg (Change.done · none) (m.setStoredAt_bare index (some value))
  | vacant index =>
      exact congrArg (Change.map fun _ => none) (m.insertAt_bare index (m.hashOf key) key (some value))
  | endless => rfl

theorem replace_bare (key : κ) (value : ν) :
    m.bare.replace key value = (m.replace key value).map id bare := by
  unfold replace
  rw [m.find?_bare]
  cases m.find? key with
  | none => rfl
  | some index => exact congrArg (m.valueAt? index, ·) (m.setStoredAt_bare index (some value))

theorem replaceIf_bare [BEq ν] (key : κ) (old new : ν) :
    m.bare.replaceIf key old new = (m.replaceIf key old new).map id bare := by
  unfold replaceIf
  rw [m.find?_bare]
  cases m.find? key with
  | none => rfl
  | some index =>
      dsimp only
      rw [apply_ite (Prod.map id bare), setStoredAt_bare]
      rfl

/-- A value is changed where it is, whatever the mode. -/
theorem modify_bare (key : κ) (f : ν → ν) : m.bare.modify key f = (m.modify key f).map id bare := by
  unfold modify
  rw [m.find?_bare]
  cases m.find? key with
  | none => rfl
  | some index =>
      dsimp only
      rw [m.valueAt?_bare]
      cases m.valueAt? index with
      | none => rfl
      | some old => exact congrArg (some (f old), ·) (m.setStoredAt_bare index (some (f old)))

theorem insertAll_bare (other : ValueMap σ η κ ν) :
    m.bare.insertAll other.bare = (m.insertAll other).within bare :=
  Change.within_forEach (fun m (e : κ × Option ν) => store_bare m e.1 e.2) other.entries m

/-- A list is stored entry by entry, whatever the mode. -/
theorem extend_bare (entries : List (κ × ν)) : m.bare.extend entries = (m.extend entries).within bare :=
  Change.within_forEach (fun m (e : κ × ν) => store_bare m e.1 (some e.2)) entries m

theorem eraseEntry_bare (key : κ) : m.bare.eraseEntry key = (m.eraseEntry key).map id bare := by
  unfold eraseEntry
  rw [m.find?_bare]
  cases m.find? key <;> rfl

theorem eraseIfValue_bare [BEq ν] (key : κ) (value : ν) :
    m.bare.eraseIfValue key value = (m.eraseIfValue key value).map id bare := by
  unfold eraseIfValue
  rw [m.find?_bare]
  cases m.find? key with
  | none => rfl
  | some index =>
      dsimp only
      rw [apply_ite (Prod.map id bare)]
      rfl

theorem computeIfAbsent_bare (key : κ) (f : κ → Reply (Option ν)) :
    m.bare.computeIfAbsent key f = (m.computeIfAbsent key f).within bare := by
  unfold computeIfAbsent
  rw [m.locate_bare]
  cases m.locate key with
  | endless => rfl
  | found index =>
      dsimp only
      rw [m.valueAt?_bare]
      -- only a null is computed anew; a value is answered without asking the function
      cases m.valueAt? index with
      | some old => rfl
      | none =>
          refine Call.run_bare rfl fun value => ?_
          cases value with
          | none => rfl
          | some value =>
              dsimp only
              rw [setStoredAt_bare]
              rfl
  | vacant index =>
      refine Call.run_bare rfl fun value => ?_
      cases value with
      | none => rfl
      | some value => exact m.insertValueAt_bare index (m.hashOf key) key value

/-- The entry is taken out, computed anew and settled in the same slot whatever the mode. -/
theorem computeIfPresent_bare (key : κ) (f : κ → ν → Reply (Option ν)) :
    m.bare.computeIfPresent key f = (m.computeIfPresent key f).within bare := by
  have hentryAt : m.bare.table.entryAt? m.layout = m.table.entryAt? m.layout := rfl
  unfold computeIfPresent
  rw [m.locate_bare]
  cases m.locate key with
  | vacant | endless => rfl
  | found index =>
      dsimp only
      rw [hentryAt]
      rcases m.table.entryAt? m.layout index with _ | ⟨stored, _ | old⟩
      · rfl
      · rfl
      · exact Call.run_bare rfl fun value => (m.takeAt index).settle_bare index _ stored value

theorem compute_bare (key : κ) (f : κ → Option ν → Reply (Option ν)) :
    m.bare.compute key f = (m.compute key f).within bare := by
  unfold compute
  rw [m.locate_bare]
  cases m.locate key with
  | endless => rfl
  | found index =>
      exact Call.run_bare rfl fun value => (m.takeAt index).settle_bare index (m.hashOf key) key value
  | vacant index =>
      refine Call.run_bare rfl fun value => ?_
      cases value with
      | none => rfl
      | some value => exact m.insertValueAt_bare index (m.hashOf key) key value

theorem merge_bare (key : κ) (value : ν) (f : ν → ν → Reply (Option ν)) :
    m.bare.merge key value f = (m.merge key value f).within bare := by
  unfold merge
  rw [m.locate_bare]
  cases m.locate key with
  | endless => rfl
  | found index =>
      dsimp only
      rw [m.valueAt?_bare]
      -- a null is replaced, a value is combined with the new one
      cases m.valueAt? index with
      | none => rfl
      | some old =>
          exact Call.run_bare rfl fun value =>
            (m.takeAt index).settle_bare index (m.hashOf key) key value
  | vacant index => exact congrArg Call.quiet (m.insertValueAt_bare index (m.hashOf key) key value)

end Keys

/-- Two cursors of maps that are the same but for where the state of a scan is kept. -/
structure Cursor.Twin (c d : Cursor σ η κ ν) : Prop where
  hashing : c.source.hashing = d.source.hashing
  policy : c.source.policy = d.source.policy
  inner : c.inner.Twin d.inner

theorem Cursor.Twin.map {c d : Cursor σ η κ ν} (h : c.Twin d) : c.map.bare = d.map.bare := by
  obtain ⟨hhashing, hpolicy, hinner⟩ := h
  unfold Cursor.map ValueMap.bare withTable
  rw [hhashing, hpolicy, hinner.table]

/-- Cursors that agree up to the mode write into the same slot. -/
theorem Cursor.Twin.setValue [EntrySlot σ κ ν] {c d : Cursor σ η κ ν} (h : c.Twin d) (value : ν) :
    (c.setValue value).1 = (d.setValue value).1 ∧ (c.setValue value).2.Twin (d.setValue value).2 := by
  have hscan := h.inner.scan
  have hmap := h.map
  unfold Cursor.setValue
  rw [hscan]
  cases d.inner.scan.current with
  | none => exact ⟨rfl, h⟩
  | some index =>
      have hvalueAt : c.map.valueAt? index = d.map.valueAt? index := by
        rw [← valueAt?_bare, hmap, valueAt?_bare]
      have hstored : (c.map.setStoredAt index (some value)).bare =
          (d.map.setStoredAt index (some value)).bare := by
        rw [← setStoredAt_bare, hmap, setStoredAt_bare]
      dsimp only
      rw [hvalueAt]
      cases d.map.valueAt? index with
      | none => exact ⟨rfl, h⟩
      | some old =>
          refine ⟨rfl, h.hashing, h.policy, ?_, congrArg ValueMap.table hstored⟩
          -- writing leaves alone what a table keeps of a scan
          have hkept : ∀ c : Cursor σ η κ ν, ({ c.inner with
              table := (c.map.setStoredAt index (some value)).table } : Table.Cursor σ).scan =
                c.inner.scan := by
            intro c
            exact congrArg c.inner.own.getD (c.map.scan_setStoredAt index (some value))
          rw [hkept, hkept, hscan]

theorem follows_twin [EntrySlot σ κ ν] :
    CursorInterface.Follows (Cursor.Twin (σ := σ) (η := η) (κ := κ) (ν := ν)) where
  next {c d} h := by
    obtain ⟨hanswer, hnext⟩ := h.inner.next (E := EntrySlot.layout)
    exact ⟨hanswer, h.hashing, h.policy, hnext⟩
  remove {c d} h := by
    obtain ⟨hanswer, hremoved⟩ := h.inner.remove (E := EntrySlot.layout)
    exact ⟨hanswer, h.hashing, h.policy, hremoved⟩
  write value {c d} h := by
    obtain ⟨hanswer, hwritten⟩ := h.setValue value
    exact ⟨congrArg Except.ok hanswer, hwritten⟩

/-- **An operation does the same without the mode of the map**, and without what a cursor has left in it. -/
theorem Operation.perform_bare [EntrySlot σ κ ν] [KeyHash η κ] [BEq κ] [BEq ν] (op : Operation σ η κ ν)
    (m : ValueMap σ η κ ν) :
    (op.bare.perform m.bare).within ValueMap.bare = (op.perform m).within ValueMap.bare := by
  cases op with
  | get? | contains =>
      simp only [Operation.bare, perform, Call.within_searching, locate_bare]
      rfl
  | containsValue | len | copy => rfl
  | insert | insertNull | insertIfAbsent =>
      simp only [Operation.bare, perform, ValueMap.insert, store_bare, insertNull_bare, insertIfAbsent_bare]
      rfl
  | replace | replaceIf | modify =>
      simp only [Operation.bare, perform, Call.within_searching, locate_bare, replace_bare, replaceIf_bare,
        modify_bare]
      rfl
  | insertAll | extend =>
      simp only [Operation.bare, perform, insertAll_bare, extend_bare]
      rfl
  | erase | eraseEntry | eraseIfValue =>
      simp only [Operation.bare, perform, Call.within_searching, locate_bare, ValueMap.erase,
        eraseEntry_bare, eraseIfValue_bare]
      rfl
  | eraseWhere | retain | forEach | clear | compact =>
      simp only [Operation.bare, perform, ValueMap.retain, eraseWhere_bare, forEach_bare, clear_bare,
        compact_bare]
      rfl
  | computeIfAbsent | computeIfPresent | compute | merge =>
      simp only [Operation.bare, perform, computeIfAbsent_bare, computeIfPresent_bare, compute_bare,
        merge_bare]
      rfl
  | cursor script =>
      have htable : m.bare.table.bare = m.table.bare := rfl
      have htwin : m.bare.openCursor.Twin m.openCursor :=
        ⟨rfl, rfl, Table.Cursor.twin_openCursor htable⟩
      obtain ⟨hanswers, hclosed⟩ := follows_twin.runScript script htwin
      simp only [Operation.bare, perform, hanswers]
      exact congrArg (Call.done · _) hclosed.map

end ValueMap

/-! ### Maps around these -/

namespace PairMap

variable {ν : Type}

/-- A map without its iteration mode, and without what a cursor has left in it. -/
def bare (m : PairMap ν) : PairMap ν := ⟨m.inner.bare⟩

variable (m : PairMap ν)

theorem insert_bare (pair : Int32 × Int32) (value : ν) :
    m.bare.insert pair value = (m.insert pair value).within bare :=
  congrArg (Change.within PairMap.mk) (m.inner.store_bare (keyOf pair) (some value))

theorem extend_bare (entries : List ((Int32 × Int32) × ν)) :
    m.bare.extend entries = (m.extend entries).within bare :=
  Change.within_forEach (fun m (e : (Int32 × Int32) × ν) => insert_bare m e.1 e.2) entries m

theorem forEach_bare (f : Int32 × Int32 → ν → Reply Unit) :
    m.bare.forEach f = (m.forEach f).within bare :=
  Call.forEach_bare (fun e : (Int32 × Int32) × ν => f e.1 e.2) m m.entries

/-- **An operation does the same without the mode of the map**, and without what a cursor has left in it. -/
theorem Operation.perform_bare [BEq ν] (op : Operation ν) (m : PairMap ν) :
    op.perform m.bare = (op.perform m).within PairMap.bare := by
  have hinner : m.bare.inner = m.inner.bare := rfl
  cases op with
  | get? | contains =>
      simp only [perform, Call.within_searching, hinner, ValueMap.locate_bare]
      rfl
  | containsValue | len | copy => rfl
  | insert | insertIfAbsent | extend =>
      simp only [perform, insert_bare, PairMap.insertIfAbsent, hinner, ValueMap.insertIfAbsent_bare,
        extend_bare]
      rfl
  | replace | modify | erase | eraseIfValue =>
      simp only [perform, Call.within_searching, PairMap.replace, PairMap.modify, PairMap.erase,
        PairMap.eraseIfValue, ValueMap.erase, hinner, ValueMap.locate_bare, ValueMap.replace_bare,
        ValueMap.modify_bare, ValueMap.eraseEntry_bare, ValueMap.eraseIfValue_bare]
      rfl
  | eraseWhere | retain =>
      simp only [perform, PairMap.retain, PairMap.eraseWhere, hinner, ValueMap.eraseWhere_bare]
      rfl
  | forEach f =>
      rw [perform, forEach_bare]
      rfl
  | clear | compact =>
      simp only [perform, PairMap.clear, PairMap.compact, hinner, ValueMap.clear_bare,
        ValueMap.compact_bare]
      rfl
  | computeIfAbsent | computeIfPresent | compute | merge =>
      simp only [perform, PairMap.computeIfAbsent, PairMap.computeIfPresent, PairMap.compute,
        PairMap.merge, hinner, ValueMap.computeIfAbsent_bare, ValueMap.computeIfPresent_bare,
        ValueMap.compute_bare, ValueMap.merge_bare]
      rfl

end PairMap

namespace Tally

variable {κ ν : Type}

/-- A tally without its iteration mode, and without what a cursor has left in it. -/
def bare (t : Tally κ ν) : Tally κ ν := ⟨t.counts.bare⟩

variable [SignedWord κ] [SignedWord ν] (t : Tally κ ν)

/-- A count is stored, or removed when it is the initial value, whatever the mode. -/
theorem set_bare (key : κ) (count : ν) : t.bare.set key count = (t.set key count).within bare := by
  have hcounts : t.bare.counts = t.counts.bare := rfl
  unfold set
  rw [apply_ite (Change.within bare), hcounts, WordMap.erase, WordMap.erase?_bare, WordMap.store_bare]
  rfl

/-- Adding nothing does not touch the map of counts, and anything else is one computation on it. -/
theorem add_bare (key : κ) (amount : ν) : t.bare.add key amount = (t.add key amount).within bare := by
  have hcounts : t.bare.counts = t.counts.bare := rfl
  unfold add
  dsimp only
  rw [apply_ite (Change.within bare), hcounts, WordMap.compute_bare]
  rfl

/-- **An operation does the same without the mode of the tally**, and without what a cursor has left in
it. -/
theorem Operation.perform_bare (op : Operation κ ν) (t : Tally κ ν) :
    op.perform t.bare = (op.perform t).within Tally.bare := by
  have hcounts : t.bare.counts = t.counts.bare := rfl
  cases op with
  | get | contains =>
      simp only [perform, Call.within_searching, hcounts, WordMap.locate_bare]
      rfl
  | len | minimum | maximum => rfl
  | set key count =>
      -- both ways of setting a count are one function; the search in front is the same
      rw [perform, set_bare, hcounts, WordMap.locate_bare, perform, Call.within_searching]
      rfl
  | addAndGet | getAndAdd | incrementAndGet | decrementAndGet | getAndIncrement | getAndDecrement =>
      simp only [perform, Call.within_searching, hcounts, WordMap.locate_bare, Tally.incrementAndGet,
        Tally.decrementAndGet, Tally.getAndIncrement, Tally.getAndDecrement, Tally.addAndGet,
        Tally.getAndAdd, add_bare]
      rfl
  | erase key =>
      simp only [perform, Call.within_searching, Tally.erase, WordMap.erase, hcounts, WordMap.locate_bare,
        WordMap.erase?_bare]
      rfl
  | eraseWhere | forEach | clear | compact =>
      simp only [perform, Tally.eraseWhere, Tally.forEach, Tally.clear, Tally.compact, hcounts,
        WordMap.eraseWhere_bare, WordMap.forEach_bare, WordMap.clear_bare, WordMap.compact_bare]
      rfl
  | computeIfAbsent | computeIfPresent | compute =>
      simp only [perform, Tally.computeIfAbsent, Tally.computeIfPresent, Tally.compute, hcounts,
        WordMap.computeIfAbsent_bare, WordMap.computeIfPresent_bare, WordMap.compute_bare]
      rfl

end Tally

end LinearProbing
