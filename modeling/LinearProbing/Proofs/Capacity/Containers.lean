import LinearProbing.Proofs.Capacity.Footprint
import LinearProbing.Proofs.ValueMap.Operation
import LinearProbing.Proofs.WordMap.Operation
import LinearProbing.Proofs.WordSet.Operation

/-!
# LinearProbing.Proofs.Capacity.Containers

**What the operations of the containers do to their size.** Each operation has one `Effect`, and the table
follows it (`Resizing`), for maps of words, for maps to values that may be null, for sets in a probing table
and for sets of words. Nothing is asked of equality and hashing here: a search may end anywhere.
-/

namespace LinearProbing

namespace Call

variable {τ σ β γ α : Type} {s : τ}

/-- A search keeps the size of a table, whether it ends or not. -/
theorem keeps_searching (table : τ → Table σ) {probes : List Probe} {c : Call τ γ α}
    (h : (table s).Keeps (table c.state)) : (table s).Keeps (table (searching probes s c).state) :=
  state_searching (P := fun left => (table s).Keeps (table left)) (fun _ => .refl _) h

/-- Showing entries to a function of the caller keeps the size of a table. -/
theorem keeps_forEach (table : τ → Table σ) (f : β → Reply Unit) (l : List β) :
    (table s).Keeps (table (forEach f s l).state) := by
  rw [state_forEach]
  exact .refl _

end Call

/-! ### Maps of words -/

namespace WordMap

variable {κ ν : Type}

/-- Insertions may grow the table, even where they end up as updates; removals never shrink it. -/
def Operation.effect : Operation κ ν → Effect
  | insert .. | insertIfAbsent .. | insertAll _ | computeIfAbsent .. | compute .. | merge .. => .inserts
  | compact => .compacts
  | get _ | getD .. | get? _ | contains _ | containsValue _ | len | replace .. | replaceIf .. | erase _
  | erase? _ | eraseIfValue .. | eraseWhere _ | retain _ | forEach _ | clear | computeIfPresent .. | cursor _ =>
    .keeps

variable [SignedWord κ] [SignedWord ν] {m : WordMap κ ν}

/-- An insertion into a map is an insertion into its table. -/
theorem gains_insertAt (h : m.table.Fits) (index : Nat) (key : κ) (value : ν) :
    (m.insertAt index key value).Gains table m :=
  (Change.gains_insertAt h index _).within fun _ => rfl

/-- A present key is overwritten in its slot, an absent one takes one more. -/
theorem gains_store (h : m.table.Fits) (key : κ) (value : ν) : (m.store key value).Gains table m := by
  unfold store
  split
  · exact Change.gains_done (u := m.setValueAt _ value) h rfl rfl _
  · exact (gains_insertAt h ..).map _
  · exact Change.gains_endless h

/-- If a value cannot be stored as the table cannot grow, the entries fill the greatest table. -/
theorem len_eq_of_store {key : κ} {value : ν} (h : m.table.Fits)
    (hoverflow : (m.store key value).result = .error .capacityOverflow) :
    m.table.len = threshold maxCapacity m.table.sizing.loadFactor := by
  unfold store at hoverflow
  split at hoverflow
  · cases hoverflow
  · -- only an insertion can fail to grow the table
    have hinsert := Change.map_eq_error_iff.mp hoverflow
    exact h.len_eq_of_insertAt hinsert
  · cases hoverflow

/-- The missing value removes an entry, any other value stays in its slot. -/
theorem keeps_updateAt (m : WordMap κ ν) (index : Nat) (value : ν) :
    m.table.Keeps (m.updateAt index value).table := by
  unfold updateAt
  split
  · exact Table.keeps_eraseAt ..
  · exact Table.keeps_setAt ..

/-- A computed value adds an entry, unless it is the missing value. -/
theorem sized_insertComputed (h : m.table.Fits) (index : Nat) (key : κ) (value : ν) :
    (m.insertComputed index key value).Sized table m := by
  unfold insertComputed
  split
  · exact Or.inr (.refl _)
  · exact Or.inl ((gains_insertAt h ..).map _)

omit [SignedWord κ] in
/-- A refused value changes nothing, whatever was to be done with it. -/
theorem sized_checked {α : Type} {value : ν} {next : Change (WordMap κ ν) α}
    (h : next.Sized table m) : (m.checked value next).Sized table m := by
  unfold checked
  split
  · exact Or.inr (.refl _)
  · exact h

omit [SignedWord κ] in
theorem keeps_checked {α : Type} {value : ν} {next : Change (WordMap κ ν) α}
    (h : m.table.Keeps next.state.table) : m.table.Keeps (m.checked value next).state.table := by
  unfold checked
  split
  · exact .refl _
  · exact h

theorem keeps_replace (m : WordMap κ ν) (key : κ) (value : ν) :
    m.table.Keeps (m.replace key value).state.table := by
  refine keeps_checked ?_
  split
  · exact Table.keeps_setAt ..
  · exact .refl _
  · exact .refl _

theorem keeps_replaceIf (m : WordMap κ ν) (key : κ) (old new : ν) :
    m.table.Keeps (m.replaceIf key old new).state.table := by
  refine keeps_checked ?_
  split
  · split
    · exact Table.keeps_setAt ..
    · exact .refl _
  · exact .refl _
  · exact .refl _

theorem keeps_erase? (m : WordMap κ ν) (key : κ) : m.table.Keeps (m.erase? key).2.table := by
  unfold erase?
  split
  · exact Table.keeps_eraseAt ..
  · exact .refl _

theorem keeps_eraseIfValue (m : WordMap κ ν) (key : κ) (value : ν) :
    m.table.Keeps (m.eraseIfValue key value).2.table := by
  unfold eraseIfValue
  split
  · split
    · exact Table.keeps_eraseAt ..
    · exact .refl _
  · exact .refl _

theorem keeps_eraseWhere (m : WordMap κ ν) (selects : κ → ν → Reply Bool) :
    m.table.Keeps (m.eraseWhere selects).state.table := Table.keeps_sweep ..

theorem keeps_computeIfPresent (m : WordMap κ ν) (key : κ) (f : κ → ν → Reply ν) :
    m.table.Keeps (m.computeIfPresent key f).state.table := by
  unfold computeIfPresent
  split
  · dsimp only
    cases f key _ with
    | panics => exact .refl _
    | answers value => exact keeps_updateAt ..
  · exact .refl _
  · exact .refl _

/-- A present key is left alone, an absent one takes one more slot. -/
theorem sized_insertIfAbsent (h : m.table.Fits) (key : κ) (value : ν) :
    (m.insertIfAbsent key value).Sized table m := by
  refine sized_checked ?_
  split
  · exact Or.inr (.refl _)
  · exact Or.inl ((gains_insertAt h ..).map _)
  · exact Or.inl (Change.gains_endless h)

/-- Copying another map stores its entries one by one. -/
theorem sized_insertAll (h : m.table.Fits) (other : WordMap κ ν) :
    (m.insertAll other).Sized table m := by
  unfold insertAll
  split
  · exact Or.inr (.refl _)
  · exact Or.inl (Change.gains_forEach (fun m e hm => gains_store hm e.1 e.2) _ h)

theorem sized_computeIfAbsent (h : m.table.Fits) (key : κ) (f : κ → Reply ν) :
    (m.computeIfAbsent key f).toChange.Sized table m := by
  unfold computeIfAbsent
  split
  · exact Or.inr (.refl _)
  · exact Call.sized_run (.refl _) fun _ => sized_insertComputed h ..
  · exact Or.inl (Change.gains_endless h)

/-- A present key is updated in its slot, an absent one may take one more. -/
theorem sized_compute (h : m.table.Fits) (key : κ) (f : κ → ν → Reply ν) :
    (m.compute key f).toChange.Sized table m := by
  unfold compute
  split
  · exact Call.sized_run (.refl _) fun _ => Or.inr (keeps_updateAt ..)
  · exact Call.sized_run (.refl _) fun _ => sized_insertComputed h ..
  · exact Or.inl (Change.gains_endless h)

theorem sized_merge (h : m.table.Fits) (key : κ) (value : ν) (f : ν → ν → Reply ν) :
    (m.merge key value f).toChange.Sized table m := by
  unfold merge
  split
  · exact Or.inr (.refl _)
  split
  · exact Call.sized_run (.refl _) fun _ => Or.inr (keeps_updateAt ..)
  · exact Or.inl ((gains_insertAt h ..).map _)
  · exact Or.inl (Change.gains_endless h)

/-- Cursors remove and overwrite entries, but never add one. -/
theorem keeps_cursor (m : WordMap κ ν) (script : List (CursorAction ν)) :
    m.table.Keeps (CursorInterface.runScript script m.openCursor).2.map.table := by
  refine CursorInterface.runScript_keeps (P := fun c : Cursor κ ν => m.table.Keeps c.inner.table)
    (fun c h => h.trans (Table.Cursor.keeps_next _)) (fun c h => h.trans (Table.Cursor.keeps_remove _))
    (fun value c h => ?_) script _ (Table.keeps_openCursor _)
  -- writing is the only step of a cursor that the table itself does not know
  show m.table.Keeps (c.setValue value).2.inner.table
  unfold Cursor.setValue
  split
  · exact h
  · exact h.trans (Table.Cursor.keeps_writeCurrent ..)

/-- **Every operation on a map of words changes the size of its table as its effect says.** -/
theorem resizing : Resizing table (Operation.perform (κ := κ) (ν := ν)) Operation.effect where
  keeps {op} heffect m := by
    cases op with
    | replace key value => exact keeps_replace ..
    | replaceIf key old new => exact keeps_replaceIf ..
    | erase key => exact Call.keeps_searching table (keeps_erase? ..)
    | erase? key => exact Call.keeps_searching table (keeps_erase? ..)
    | eraseIfValue key value => exact Call.keeps_searching table (keeps_eraseIfValue ..)
    | eraseWhere selects => exact keeps_eraseWhere ..
    | retain keeps => exact keeps_eraseWhere ..
    | forEach f => exact Call.keeps_forEach table ..
    | clear => exact Table.keeps_clearWith ..
    | computeIfPresent key f => exact keeps_computeIfPresent ..
    | cursor script => exact keeps_cursor ..
    | insert | insertIfAbsent | insertAll | computeIfAbsent | compute | merge | compact =>
        exact absurd heffect nofun
    | get | getD | get? | contains => exact Call.keeps_searching table (.refl _)
    | containsValue | len => exact .refl _
  inserts {op} heffect m h := by
    cases op with
    | insert key value => exact (sized_checked (Or.inl (gains_store h ..))).map _
    | insertIfAbsent key value => exact (sized_insertIfAbsent h ..).map _
    | insertAll other => exact (sized_insertAll h other).map _
    | computeIfAbsent key f => exact (sized_computeIfAbsent h ..).map _
    | compute key f => exact (sized_compute h ..).map _
    | merge key value f => exact (sized_merge h ..).map _
    | _ => exact absurd heffect nofun
  compacts {op} heffect m h := by
    cases op with
    | compact =>
        exact ⟨⟨.nothing, congrArg (Except.map _) h.compact_result⟩, h.compact⟩
    | _ => exact absurd heffect nofun
  renews {op} heffect m := by cases op <;> exact absurd heffect nofun

end WordMap

/-! ### Maps to values that may be null -/

namespace ValueMap

variable {σ η κ ν : Type}

/-- A null that is stored takes a slot as well, so storing one is an insertion. -/
def Operation.effect : Operation σ η κ ν → Effect
  | insert .. | insertNull _ | insertIfAbsent .. | insertAll _ | extend _ | computeIfAbsent ..
  | compute .. | merge .. => .inserts
  | compact => .compacts
  | get? _ | contains _ | containsValue _ | len | replace .. | replaceIf .. | modify .. | erase _
  | eraseEntry _ | eraseIfValue .. | eraseWhere _ | retain _ | forEach _ | clear | copy
  | computeIfPresent .. | cursor _ => .keeps

variable [EntrySlot σ κ ν] {m : ValueMap σ η κ ν}

theorem gains_insertAt (h : m.table.Fits) (index : Nat) (hash : UInt64) (key : κ) (stored : Option ν) :
    (m.insertAt index hash key stored).Gains table m :=
  (Change.gains_insertAt h index _).within fun _ => rfl

theorem gains_insertValueAt (h : m.table.Fits) (index : Nat) (hash : UInt64) (key : κ) (value : ν) :
    (m.insertValueAt index hash key value).Gains table m := (gains_insertAt h ..).andThen_done _

/-- Writing into an occupied slot leaves the capacity alone. -/
theorem setStoredAt_sizing (m : ValueMap σ η κ ν) (index : Nat) (stored : Option ν) :
    (m.setStoredAt index stored).table.sizing = m.table.sizing := by
  unfold setStoredAt
  split <;> rfl

theorem setStoredAt_len (m : ValueMap σ η κ ν) (index : Nat) (stored : Option ν) :
    (m.setStoredAt index stored).table.len = m.table.len := by
  unfold setStoredAt
  split <;> rfl

theorem keeps_setStoredAt (m : ValueMap σ η κ ν) (index : Nat) (stored : Option ν) :
    m.table.Keeps (m.setStoredAt index stored).table :=
  ⟨setStoredAt_sizing .., (setStoredAt_len ..).le⟩

theorem keeps_closeTaken (m : ValueMap σ η κ ν) (index : Nat) :
    m.table.Keeps ((m.takeAt index).closeTaken index).table := Table.keeps_eraseAt ..

/-- An entry that was taken out of its slot is put back or removed. -/
theorem keeps_settle (m : ValueMap σ η κ ν) (index : Nat) (hash : UInt64) (key : κ)
    (value : Option ν) : m.table.Keeps ((m.takeAt index).settle index hash key value).state.table := by
  cases value with
  | none => exact keeps_closeTaken ..
  | some value => exact (Table.keeps_takeAt ..).trans (Table.keeps_setAt ..)

/-- Whether a function of the caller panics or not, an entry that was taken out adds none. -/
theorem sized_run_settle {γ : Type} {arguments : γ} (m : ValueMap σ η κ ν) (index : Nat) (hash : UInt64)
    (key : κ) (reply : Reply (Option ν)) :
    (Call.run arguments reply ((m.takeAt index).closeTaken index)
      ((m.takeAt index).settle index hash key)).toChange.Sized table m :=
  Call.sized_run (keeps_closeTaken ..) fun _ => Or.inr (keeps_settle ..)

theorem keeps_eraseWhere (m : ValueMap σ η κ ν) (selects : κ → Option ν → Reply Bool) :
    m.table.Keeps (m.eraseWhere selects).state.table := Table.keeps_sweep ..

theorem keeps_cursor (m : ValueMap σ η κ ν) (script : List (CursorAction ν)) :
    m.table.Keeps (CursorInterface.runScript script m.openCursor).2.map.table := by
  refine CursorInterface.runScript_keeps (P := fun c : Cursor σ η κ ν => m.table.Keeps c.inner.table)
    (fun c h => h.trans (Table.Cursor.keeps_next _)) (fun c h => h.trans (Table.Cursor.keeps_remove _))
    (fun value c h => ?_) script _ (Table.keeps_openCursor _)
  show m.table.Keeps (c.setValue value).2.inner.table
  unfold Cursor.setValue
  split
  · exact h
  split
  · exact h
  · exact h.trans (keeps_setStoredAt c.map ..)

variable [KeyHash η κ] [BEq κ]

/-- A present key is overwritten in its slot, an absent one takes one more. -/
theorem gains_store (h : m.table.Fits) (key : κ) (stored : Option ν) :
    (m.store key stored).Gains table m := by
  unfold store
  split
  · exact Change.gains_done (u := m.setStoredAt _ stored) h (setStoredAt_sizing ..)
      (setStoredAt_len ..) _
  · exact (gains_insertAt h ..).map _
  · exact Change.gains_endless h

/-- If an entry cannot be stored as the table cannot grow, the entries fill the greatest table. -/
theorem len_eq_of_store {key : κ} {stored : Option ν} (h : m.table.Fits)
    (hoverflow : (m.store key stored).result = .error .capacityOverflow) :
    m.table.len = threshold maxCapacity m.table.sizing.loadFactor := by
  unfold store at hoverflow
  split at hoverflow
  · cases hoverflow
  · have hinsert := Change.map_eq_error_iff.mp hoverflow
    exact h.len_eq_of_insertAt hinsert
  · cases hoverflow

theorem gains_insertAll (h : m.table.Fits) (other : ValueMap σ η κ ν) :
    (m.insertAll other).Gains table m :=
  Change.gains_forEach (fun _ e hm => gains_store hm e.1 e.2) _ h

theorem gains_extend (h : m.table.Fits) (entries : List (κ × ν)) :
    (m.extend entries).Gains table m :=
  Change.gains_forEach (fun _ e hm => gains_store hm e.1 (some e.2)) _ h

/-- A null is refused, or stored as any other value. -/
theorem sized_insertNull (h : m.table.Fits) (key : κ) : (m.insertNull key).Sized table m := by
  unfold insertNull
  split
  · exact Or.inr (.refl _)
  · exact Or.inl (gains_store h ..)

/-- A null under a present key is overwritten in its slot. -/
theorem sized_insertIfAbsent (h : m.table.Fits) (key : κ) (value : ν) :
    (m.insertIfAbsent key value).Sized table m := by
  unfold insertIfAbsent
  split
  · split
    · exact Or.inr (.refl _)
    · exact Or.inr (keeps_setStoredAt ..)
  · exact Or.inl ((gains_insertAt h ..).map _)
  · exact Or.inl (Change.gains_endless h)

theorem keeps_replace (m : ValueMap σ η κ ν) (key : κ) (value : ν) :
    m.table.Keeps (m.replace key value).2.table := by
  unfold replace
  split
  · exact keeps_setStoredAt ..
  · exact .refl _

theorem keeps_replaceIf [BEq ν] (m : ValueMap σ η κ ν) (key : κ) (old new : ν) :
    m.table.Keeps (m.replaceIf key old new).2.table := by
  unfold replaceIf
  split
  · split
    · exact keeps_setStoredAt ..
    · exact .refl _
  · exact .refl _

/-- A value is changed where it is. -/
theorem keeps_modify (m : ValueMap σ η κ ν) (key : κ) (f : ν → ν) :
    m.table.Keeps (m.modify key f).2.table := by
  unfold modify
  split
  · split
    · exact keeps_setStoredAt ..
    · exact .refl _
  · exact .refl _

theorem keeps_eraseEntry (m : ValueMap σ η κ ν) (key : κ) :
    m.table.Keeps (m.eraseEntry key).2.table := by
  unfold eraseEntry
  split
  · exact Table.keeps_eraseAt ..
  · exact .refl _

theorem keeps_eraseIfValue [BEq ν] (m : ValueMap σ η κ ν) (key : κ) (value : ν) :
    m.table.Keeps (m.eraseIfValue key value).2.table := by
  unfold eraseIfValue
  split
  · split
    · exact Table.keeps_eraseAt ..
    · exact .refl _
  · exact .refl _

theorem keeps_computeIfPresent (m : ValueMap σ η κ ν) (key : κ) (f : κ → ν → Reply (Option ν)) :
    m.table.Keeps (m.computeIfPresent key f).state.table := by
  unfold computeIfPresent
  split
  · split
    · exact .refl _
    · exact .refl _
    · next stored old _ =>
      dsimp only
      cases f stored old with
      | panics => exact keeps_closeTaken ..
      | answers value => exact keeps_settle ..
  · exact .refl _
  · exact .refl _

theorem sized_computeIfAbsent (h : m.table.Fits) (key : κ) (f : κ → Reply (Option ν)) :
    (m.computeIfAbsent key f).toChange.Sized table m := by
  unfold computeIfAbsent
  split
  · split
    · exact Or.inr (.refl _)
    · refine Call.sized_run (.refl _) fun computed => ?_
      -- what is computed to be null is not stored, also under a key that holds a null
      cases computed with
      | none => exact Or.inr (.refl _)
      | some value => exact Or.inr (keeps_setStoredAt ..)
  · refine Call.sized_run (.refl _) fun computed => ?_
    cases computed with
    | none => exact Or.inr (.refl _)
    | some value => exact Or.inl (gains_insertValueAt h ..)
  · exact Or.inl (Change.gains_endless h)

/-- An entry that was taken out comes back or is removed; an absent key may get one. -/
theorem sized_compute (h : m.table.Fits) (key : κ) (f : κ → Option ν → Reply (Option ν)) :
    (m.compute key f).toChange.Sized table m := by
  unfold compute
  split
  · exact sized_run_settle ..
  · refine Call.sized_run (.refl _) fun computed => ?_
    cases computed with
    | none => exact Or.inr (.refl _)
    | some value => exact Or.inl (gains_insertValueAt h ..)
  · exact Or.inl (Change.gains_endless h)

theorem sized_merge (h : m.table.Fits) (key : κ) (value : ν) (f : ν → ν → Reply (Option ν)) :
    (m.merge key value f).toChange.Sized table m := by
  unfold merge
  split
  · dsimp only
    split
    · exact sized_run_settle ..
    · -- a null is replaced by the value, without asking the function
      exact Or.inr (keeps_settle ..)
  · exact Or.inl (gains_insertValueAt h ..)
  · exact Or.inl (Change.gains_endless h)

/-- **Every operation on a map to values changes the size of its table as its effect says.** -/
theorem resizing [BEq ν] :
    Resizing table (Operation.perform (σ := σ) (η := η) (κ := κ) (ν := ν)) Operation.effect where
  keeps {op} heffect m := by
    cases op with
    | replace key value => exact Call.keeps_searching table (keeps_replace ..)
    | replaceIf key old new => exact Call.keeps_searching table (keeps_replaceIf ..)
    | modify key f => exact Call.keeps_searching table (keeps_modify ..)
    | erase key => exact Call.keeps_searching table (keeps_eraseEntry ..)
    | eraseEntry key => exact Call.keeps_searching table (keeps_eraseEntry ..)
    | eraseIfValue key value => exact Call.keeps_searching table (keeps_eraseIfValue ..)
    | eraseWhere selects => exact keeps_eraseWhere ..
    | retain keeps => exact keeps_eraseWhere ..
    | forEach f => exact Call.keeps_forEach table ..
    | clear => exact Table.keeps_clearWith ..
    | copy => exact ⟨rfl, Nat.le_refl _⟩
    | computeIfPresent key f => exact keeps_computeIfPresent ..
    | cursor script => exact keeps_cursor ..
    | get? | contains => exact Call.keeps_searching table (.refl _)
    | containsValue | len => exact .refl _
    | _ => exact absurd heffect nofun
  inserts {op} heffect m h := by
    cases op with
    | insert key value => exact Or.inl ((gains_store h ..).map _)
    | insertNull key => exact (sized_insertNull h key).map _
    | insertIfAbsent key value => exact (sized_insertIfAbsent h ..).map _
    | insertAll other => exact Or.inl ((gains_insertAll h other).map _)
    | extend entries => exact Or.inl ((gains_extend h entries).map _)
    | computeIfAbsent key f => exact (sized_computeIfAbsent h ..).map _
    | compute key f => exact (sized_compute h ..).map _
    | merge key value f => exact (sized_merge h ..).map _
    | _ => exact absurd heffect nofun
  compacts {op} heffect m h := by
    cases op with
    | compact =>
        exact ⟨⟨.nothing, congrArg (Except.map _) h.compact_result⟩, h.compact⟩
    | _ => exact absurd heffect nofun
  renews {op} heffect m := by cases op <;> exact absurd heffect nofun

end ValueMap

/-! ### Sets in a probing table -/

namespace MemberSet

variable {σ η α : Type}

/-- A difference is collected in a new set, of the standard size. -/
def Operation.effect : Operation σ η α → Effect
  | insert _ | extend _ => .inserts
  | compact => .compacts
  | difference _ => .renews
  | contains _ | containsAll _ | get? _ | len | erase _ | take _ | eraseAll _ | retain _ | clear | copy
  | cursor _ => .keeps

variable [MemberSlot σ α] {s : MemberSet σ η α}

theorem keeps_retain (s : MemberSet σ η α) (keeps : α → Reply Bool) :
    s.table.Keeps (s.retain keeps).state.table := Table.keeps_sweep ..

theorem keeps_cursor (s : MemberSet σ η α) (script : List (CursorAction Empty)) :
    s.table.Keeps (CursorInterface.runScript script s.openCursor).2.set.table :=
  CursorInterface.runScript_keeps (P := fun c : Cursor σ η α => s.table.Keeps c.inner.table)
    (fun _ h => h.trans (Table.Cursor.keeps_next _)) (fun _ h => h.trans (Table.Cursor.keeps_remove _))
    nofun script _ (Table.keeps_openCursor _)

variable [KeyHash η α] [BEq α]

/-- A member that is there already stays; another one takes a slot. -/
theorem gains_insert (h : s.table.Fits) (x : α) : (s.insert x).Gains table s := by
  unfold insert
  split
  · exact Change.gains_done h rfl rfl _
  · exact ((Change.gains_insertAt h ..).within fun _ => rfl).map _
  · exact Change.gains_endless h

theorem gains_extend (h : s.table.Fits) (xs : List α) : (s.extend xs).Gains table s :=
  Change.gains_forEach (fun _ x hs => gains_insert hs x) xs h

theorem keeps_take (s : MemberSet σ η α) (x : α) : s.table.Keeps (s.take x).2.table := by
  unfold take
  split
  · exact Table.keeps_eraseAt ..
  · exact .refl _

theorem keeps_eraseAll (s : MemberSet σ η α) (xs : List α) :
    s.table.Keeps (s.eraseAll xs).2.table := by
  -- the set changes with each member, so the induction is over all sets
  induction xs generalizing s with
  | nil => exact .refl _
  | cons x rest ih => exact (keeps_take s x).trans (ih _)

/-- **Every operation on a set in a probing table changes its size as its effect says.** -/
theorem resizing :
    Resizing table (Operation.perform (σ := σ) (η := η) (α := α)) Operation.effect where
  keeps {op} heffect s := by
    cases op with
    | erase x => exact Call.keeps_searching table (keeps_take ..)
    | take x => exact Call.keeps_searching table (keeps_take ..)
    | eraseAll xs => exact Call.keeps_searching table (keeps_eraseAll ..)
    | retain keeps => exact keeps_retain ..
    | clear => exact Table.keeps_clearWith ..
    | copy => exact ⟨rfl, Nat.le_refl _⟩
    | cursor script => exact keeps_cursor ..
    | contains | containsAll | get? => exact Call.keeps_searching table (.refl _)
    | len => exact .refl _
    | _ => exact absurd heffect nofun
  inserts {op} heffect s h := by
    cases op with
    | insert x => exact Or.inl ((gains_insert h x).map _)
    | extend xs => exact Or.inl ((gains_extend h xs).map _)
    | _ => exact absurd heffect nofun
  compacts {op} heffect s h := by
    cases op with
    | compact =>
        exact ⟨⟨.nothing, congrArg (Except.map _) h.compact_result⟩, h.compact⟩
    | _ => exact absurd heffect nofun
  renews {op} heffect s := by
    cases op with
    | difference other =>
        exact ⟨.ofSizing .standard s.table.mode s.hashing, rfl,
          (gains_extend (Table.fits_ofSizing Sizing.valid_standard _) _).map _⟩
    | _ => exact absurd heffect nofun

end MemberSet

/-! ### Sets of words -/

namespace WordSet

variable {α : Type}

/-- The table of a set of words. Minus one has no slot in it. -/
def table (s : WordSet α) : Table α := s.inner.table

/-- The effect of an operation on a set of words; whether minus one is a member has none. -/
def Operation.effect : Operation α → Effect
  | insert _ | extend _ => .inserts
  | compact => .compacts
  | difference _ => .renews
  | contains _ | containsAll _ | len | erase _ | eraseAll _ | retain _ | clear | cursor _ => .keeps

variable [SignedWord α] {s : WordSet α}

/-- Minus one is marked and takes no slot. -/
theorem gains_insert (h : s.table.Fits) (x : α) : (s.insert x).Gains table s := by
  unfold insert
  split
  · exact Change.gains_done h rfl rfl _
  · exact (MemberSet.gains_insert h x).within fun _ => rfl

theorem gains_extend (h : s.table.Fits) (xs : List α) : (s.extend xs).Gains table s :=
  Change.gains_forEach (fun _ x hs => gains_insert hs x) xs h

theorem keeps_erase (s : WordSet α) (x : α) : s.table.Keeps (s.erase x).2.table := by
  unfold erase
  split
  · exact .refl _
  · exact MemberSet.keeps_take s.inner x

theorem keeps_eraseAll (s : WordSet α) (xs : List α) : s.table.Keeps (s.eraseAll xs).2.table := by
  induction xs generalizing s with
  | nil => exact .refl _
  | cons x rest ih => exact (keeps_erase s x).trans (ih _)

/-- After a scan of the table, which may have panicked, minus one is asked about. -/
theorem keeps_retain (s : WordSet α) (keeps : α → Reply Bool) :
    s.table.Keeps (s.retain keeps).state.table := by
  have hswept := MemberSet.keeps_retain s.inner keeps
  unfold retain
  dsimp only
  split
  · exact hswept
  split
  · split
    · exact hswept
    · exact hswept
  · exact hswept

theorem keeps_cursor (s : WordSet α) (script : List (CursorAction Empty)) :
    s.table.Keeps (CursorInterface.runScript script s.openCursor).2.set.table := by
  refine CursorInterface.runScript_keeps
    (P := fun c : Cursor α => s.table.Keeps c.inner.inner.table) ?_ ?_ nofun script _
    (Table.keeps_openCursor _)
  · intro c h
    -- the scan of the table comes first, and minus one after it
    have hnext : s.table.Keeps c.inner.next.2.inner.table := h.trans (Table.Cursor.keeps_next _)
    show s.table.Keeps c.next.2.inner.inner.table
    unfold Cursor.next
    split
    · next heq => rwa [heq] at hnext
    · next heq =>
      rw [heq] at hnext
      split
      · exact hnext
      · exact hnext
  · intro c h
    show s.table.Keeps c.remove.2.inner.inner.table
    unfold Cursor.remove
    split
    · exact h
    · exact h.trans (Table.Cursor.keeps_remove _)

/-- **Every operation on a set of words changes the size of its table as its effect says.** -/
theorem resizing : Resizing table (Operation.perform (α := α)) Operation.effect where
  keeps {op} heffect s := by
    cases op with
    | erase x => exact Call.keeps_searching table (keeps_erase ..)
    | eraseAll xs => exact Call.keeps_searching table (keeps_eraseAll ..)
    | retain keeps => exact keeps_retain ..
    | clear => exact Table.keeps_clearWith ..
    | cursor script => exact keeps_cursor ..
    | contains | containsAll => exact Call.keeps_searching table (.refl _)
    | len => exact .refl _
    | _ => exact absurd heffect nofun
  inserts {op} heffect s h := by
    cases op with
    | insert x => exact Or.inl ((gains_insert h x).map _)
    | extend xs => exact Or.inl ((gains_extend h xs).map _)
    | _ => exact absurd heffect nofun
  compacts {op} heffect s h := by
    cases op with
    | compact =>
        exact ⟨⟨.nothing, congrArg (Except.map _) h.compact_result⟩, h.compact⟩
    | _ => exact absurd heffect nofun
  renews {op} heffect s := by
    cases op with
    | difference other =>
        let fresh : WordSet α :=
          { inner := .ofSizing .standard s.inner.table.mode {}, marked := false }
        have hfits : fresh.table.Fits := Table.fits_ofSizing Sizing.valid_standard _
        exact ⟨fresh, rfl, (gains_extend hfits _).map _⟩
    | _ => exact absurd heffect nofun

end WordSet

end LinearProbing
