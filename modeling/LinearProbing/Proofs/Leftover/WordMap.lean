import LinearProbing.Proofs.Leftover.Table
import LinearProbing.Proofs.WordMap.Represents

/-!
# LinearProbing.Proofs.Leftover.WordMap

**What is left in the vacant slots of a word map does not show**: all operations do the same to two maps with
one missing value whose tables are alike.
-/

namespace LinearProbing.WordMap

variable {κ ν : Type} [SignedWord κ] [SignedWord ν]
variable {counted : Prop} {missing : ν} {m n : WordMap κ ν} {i : Nat} {key : κ} {value : ν}

/-- Two maps with the same missing value are the same but for what is left in vacant slots. -/
structure Like (missing : ν) (counted : Prop) (m n : WordMap κ ν) : Prop where
  left : m.missing = missing
  right : n.missing = missing
  table : m.table.Like (inlineLayout missing) counted n.table

theorem layout_lawful (missing : ν) : (inlineLayout (κ := κ) missing).layout.Lawful :=
  (inlineLayout_lawful missing).layout

/-- A slot with a value other than the missing one is occupied, whatever its key. -/
theorem vacant_of_ne {s : κ × ν} (h : s.2 ≠ missing) : (inlineLayout missing).layout.vacant s = false := by
  show (if s.2 = missing then none else some s).isNone = false
  rw [if_neg h]
  rfl

/-! ### Reading -/

/-- Searches end at the same slot, as they compare keys of occupied slots only. -/
theorem Like.locate_eq (h : m.Like missing counted n) (key : κ) : m.locate key = n.locate key := by
  rw [locate, locate, layout, layout, h.left, h.right, h.table.locate_eq]

theorem Like.find?_eq (h : m.Like missing counted n) (key : κ) : m.find? key = n.find? key := by
  rw [find?, find?, layout, layout, h.left, h.right, h.table.find?_eq]

/-- Occupied slots hold the same values; vacant ones hold the missing value under any key. -/
theorem Like.valueAt_eq (h : m.Like missing counted n)
    (hocc : (inlineLayout missing).layout.vacantAt m.table.slots i = false) : m.valueAt i = n.valueAt i := by
  rw [valueAt, valueAt, layout, layout, h.left, h.right, h.table.slotAt_eq hocc]

/-- The same values are read. -/
theorem Like.get?_eq (h : m.Like missing counted n) (key : κ) : m.get? key = n.get? key := by
  rw [get?, get?, ← h.find?_eq]
  cases hfind : m.find? key with
  | none => rfl
  | some i => exact congrArg some (h.valueAt_eq (h.left ▸ Table.vacantAt_of_find? hfind))

theorem Like.entries_eq (h : m.Like missing counted n) : m.entries = n.entries := by
  rw [entries, entries, layout, layout, h.left, h.right, h.table.entries_eq]

/-! ### Slots -/

/-- The slot where a search has found a key is occupied, and the one where it has missed it is vacant. -/
theorem Like.vacantAt_found (h : m.Like missing counted n) (hlocate : m.locate key = .found i) :
    (inlineLayout missing).layout.vacantAt m.table.slots i = false :=
  h.left ▸ Table.vacantAt_of_locate_found hlocate

theorem Like.vacantAt_vacant (h : m.Like missing counted n) (hlocate : m.locate key = .vacant i) :
    i < m.table.slots.size ∧ (inlineLayout missing).layout.vacantAt m.table.slots i = true :=
  h.left ▸ Table.vacantAt_of_locate_vacant hlocate

theorem Like.vacantAt_find? (h : m.Like missing counted n) (hfind : m.find? key = some i) :
    (inlineLayout missing).layout.vacantAt m.table.slots i = false :=
  h.left ▸ Table.vacantAt_of_find? hfind

/-- An entry that is put into the same vacant slot overwrites the key that was left over there. -/
theorem Like.insertAt (h : m.Like missing counted n)
    (hvac : i < m.table.slots.size ∧ (inlineLayout missing).layout.vacantAt m.table.slots i = true)
    (hvalue : value ≠ missing) :
    (m.insertAt i key value).Matches (Like missing counted) (n.insertAt i key value) := by
  obtain ⟨_, t⟩ := m
  obtain ⟨_, u⟩ := n
  obtain ⟨rfl, rfl, h⟩ := h
  exact (h.insertAt (layout_lawful _) hvac (vacant_of_ne hvalue)).within fun h => ⟨rfl, rfl, h⟩

/-- Removing from the same slot closes the same gap. -/
theorem Like.eraseAt (h : m.Like missing counted n)
    (hocc : (inlineLayout missing).layout.vacantAt m.table.slots i = false) :
    (m.eraseAt i).Like missing counted (n.eraseAt i) := by
  obtain ⟨_, t⟩ := m
  obtain ⟨_, u⟩ := n
  obtain ⟨rfl, rfl, h⟩ := h
  exact ⟨rfl, rfl, h.eraseAt (layout_lawful _) hocc⟩

/-- A value that is written into the same occupied slot keeps the key there. -/
theorem Like.setValueAt (h : m.Like missing counted n)
    (hocc : (inlineLayout missing).layout.vacantAt m.table.slots i = false) (hvalue : value ≠ missing) :
    (m.setValueAt i value).Like missing counted (n.setValueAt i value) := by
  obtain ⟨_, t⟩ := m
  obtain ⟨_, u⟩ := n
  obtain ⟨rfl, rfl, h⟩ := h
  refine ⟨rfl, rfl, ?_⟩
  show (t.setAt i _).Like _ _ (u.setAt i (((inlineLayout _).layout.slotAt u.slots i).1, value))
  rw [← h.slotAt_eq hocc]
  exact h.setAt (layout_lawful _) hocc (vacant_of_ne hvalue)

/-- The missing value removes the entry, any other one is written. -/
theorem Like.updateAt (h : m.Like missing counted n)
    (hocc : (inlineLayout missing).layout.vacantAt m.table.slots i = false) (value : ν) :
    (m.updateAt i value).Like missing counted (n.updateAt i value) := by
  rw [WordMap.updateAt, WordMap.updateAt, h.left, h.right]
  split
  · exact h.eraseAt hocc
  · next hvalue => exact h.setValueAt hocc hvalue

theorem Like.insertComputed (h : m.Like missing counted n)
    (hvac : i < m.table.slots.size ∧ (inlineLayout missing).layout.vacantAt m.table.slots i = true) :
    (m.insertComputed i key value).Matches (Like missing counted) (n.insertComputed i key value) := by
  rw [WordMap.insertComputed, WordMap.insertComputed, h.left, h.right]
  exact .ite (fun _ => .done h value) fun hvalue => (h.insertAt hvac hvalue).map _

/-! ### Storing -/

theorem Like.refusal_eq (h : m.Like missing counted n) : m.refusal = n.refusal := by
  rw [refusal, refusal, h.left, h.right]

/-- A value is refused by both maps or by none. -/
theorem Like.checked {α : Type} {c d : Change (WordMap κ ν) α} (h : m.Like missing counted n)
    (hnext : value ≠ missing → c.Matches (Like missing counted) d) :
    (m.checked value c).Matches (Like missing counted) (n.checked value d) := by
  rw [WordMap.checked, WordMap.checked, h.left, h.right, h.refusal_eq]
  exact .ite (fun _ => .fail h _) hnext

/-- Storing a value that is not missing leaves maps alike. -/
theorem Like.store (h : m.Like missing counted n) (key : κ) (hvalue : value ≠ missing) :
    (m.store key value).Matches (Like missing counted) (n.store key value) := by
  rw [WordMap.store, WordMap.store, ← h.locate_eq]
  cases hlocate : m.locate key with
  | endless => exact .fail h .endlessSearch
  | found i =>
      have hocc := h.vacantAt_found hlocate
      dsimp only
      rw [h.valueAt_eq hocc]
      exact .done (h.setValueAt hocc hvalue) _
  | vacant i =>
      dsimp only
      rw [h.left, h.right]
      exact (h.insertAt (h.vacantAt_vacant hlocate) hvalue).map _

theorem Like.insert (h : m.Like missing counted n) (key : κ) (value : ν) :
    (m.insert key value).Matches (Like missing counted) (n.insert key value) :=
  h.checked (h.store key)

theorem Like.insertIfAbsent (h : m.Like missing counted n) (key : κ) (value : ν) :
    (m.insertIfAbsent key value).Matches (Like missing counted) (n.insertIfAbsent key value) := by
  refine h.checked fun hvalue => ?_
  rw [← h.locate_eq]
  cases hlocate : m.locate key with
  | endless => exact .fail h .endlessSearch
  | found i =>
      dsimp only
      rw [h.valueAt_eq (h.vacantAt_found hlocate)]
      exact .done h _
  | vacant i =>
      dsimp only
      rw [h.left, h.right]
      exact (h.insertAt (h.vacantAt_vacant hlocate) hvalue).map _

theorem Like.replace (h : m.Like missing counted n) (key : κ) (value : ν) :
    (m.replace key value).Matches (Like missing counted) (n.replace key value) := by
  refine h.checked fun hvalue => ?_
  rw [← h.locate_eq]
  cases hlocate : m.locate key with
  | endless => exact .fail h .endlessSearch
  | vacant _ =>
      dsimp only
      rw [h.left, h.right]
      exact .done h missing
  | found i =>
      have hocc := h.vacantAt_found hlocate
      dsimp only
      rw [h.valueAt_eq hocc]
      exact .done (h.setValueAt hocc hvalue) _

/-- A conditional replacement answers the same and leaves maps alike. -/
theorem Like.replaceIf (h : m.Like missing counted n) (key : κ) (old new : ν) :
    (m.replaceIf key old new).Matches (Like missing counted) (n.replaceIf key old new) := by
  refine h.checked fun hvalue => ?_
  rw [← h.locate_eq]
  cases hlocate : m.locate key with
  | endless => exact .fail h .endlessSearch
  | vacant _ => exact .done h false
  | found i =>
      have hocc := h.vacantAt_found hlocate
      dsimp only
      rw [h.valueAt_eq hocc]
      exact .ite (fun _ => .done (h.setValueAt hocc hvalue) true) fun _ => .done h false

omit [SignedWord κ] [SignedWord ν] in
/-- No entry of a map has its missing value. -/
theorem ne_missing_of_mem_entries [SignedWord κ] [SignedWord ν] {other : WordMap κ ν} {e : κ × ν}
    (he : e ∈ other.entries) : e.2 ≠ other.missing := by
  obtain ⟨s, -, hs⟩ := List.mem_filterMap.mp (show e ∈ other.table.slots.toList.filterMap _ from he)
  change (if s.2 = other.missing then none else some s) = some e at hs
  split at hs
  · cases hs
  · next hne =>
    cases hs
    exact hne

/-- The entries of one map, copied into maps that are alike, leave them alike. -/
theorem Like.insertAll (h : m.Like missing counted n) (other : WordMap κ ν) :
    (m.insertAll other).Matches (Like missing counted) (n.insertAll other) := by
  rw [WordMap.insertAll, WordMap.insertAll, h.left, h.right, h.refusal_eq]
  refine .ite (fun _ => .fail h _) fun hstorable => .forEach _ h fun e he _ _ h => h.store e.1 ?_
  -- the entries are checked as a whole, against this map's missing value
  intro hvalue
  by_cases hsame : other.missing = missing
  · exact ne_missing_of_mem_entries he (hvalue.trans hsame.symm)
  · exact hstorable ⟨hsame, by simpa [values] using ⟨e.1, hvalue ▸ he⟩⟩

/-! ### Removing -/

/-- A removal gives back the same value. -/
theorem Like.erase? (h : m.Like missing counted n) (key : κ) :
    (m.erase? key).1 = (n.erase? key).1 ∧ (m.erase? key).2.Like missing counted (n.erase? key).2 := by
  rw [WordMap.erase?, WordMap.erase?, ← h.find?_eq]
  cases hfind : m.find? key with
  | none => exact ⟨rfl, h⟩
  | some i =>
      have hocc := h.vacantAt_find? hfind
      exact ⟨congrArg some (h.valueAt_eq hocc), h.eraseAt hocc⟩

theorem Like.erase (h : m.Like missing counted n) (key : κ) :
    (m.erase key).1 = (n.erase key).1 ∧ (m.erase key).2.Like missing counted (n.erase key).2 := by
  obtain ⟨hold, hstate⟩ := h.erase? key
  refine ⟨?_, hstate⟩
  show (m.erase? key).1.getD m.missing = (n.erase? key).1.getD n.missing
  rw [hold, h.left, h.right]

/-- A conditional removal answers the same and leaves maps alike. -/
theorem Like.eraseIfValue (h : m.Like missing counted n) (key : κ) (value : ν) :
    (m.eraseIfValue key value).1 = (n.eraseIfValue key value).1 ∧
      (m.eraseIfValue key value).2.Like missing counted (n.eraseIfValue key value).2 := by
  rw [WordMap.eraseIfValue, WordMap.eraseIfValue, ← h.find?_eq]
  cases hfind : m.find? key with
  | none => exact ⟨rfl, h⟩
  | some i =>
      have hocc := h.vacantAt_find? hfind
      dsimp only
      rw [h.valueAt_eq hocc]
      split
      · exact ⟨rfl, h.eraseAt hocc⟩
      · exact ⟨rfl, h⟩

/-- A sweep asks the same questions, as it shows occupied slots only. -/
theorem Like.eraseWhere (h : m.Like missing counted n) (selects : κ → ν → Reply Bool) :
    (m.eraseWhere selects).Matches (Like missing counted) (n.eraseWhere selects) := by
  obtain ⟨_, t⟩ := m
  obtain ⟨_, u⟩ := n
  obtain ⟨rfl, rfl, h⟩ := h
  exact (h.eraseWhere (layout_lawful _) selects).within fun h => ⟨rfl, rfl, h⟩

theorem vacant_empty (missing : ν) :
    (inlineLayout missing).layout.vacant (inlineLayout (κ := κ) missing).empty = true :=
  (layout_lawful missing).vacant_empty

/-- All slots are made vacant; the keys left over in them may differ. -/
theorem Like.clear (h : m.Like missing counted n) : m.clear.Like missing counted n.clear := by
  obtain ⟨_, t⟩ := m
  obtain ⟨_, u⟩ := n
  obtain ⟨rfl, rfl, h⟩ := h
  exact ⟨rfl, rfl, h.clearWith (layout_lawful _) fun _ => vacant_empty _⟩

theorem Like.compact (h : m.Like missing counted n) :
    m.compact.Matches (Like missing counted) n.compact := by
  obtain ⟨_, t⟩ := m
  obtain ⟨_, u⟩ := n
  obtain ⟨rfl, rfl, h⟩ := h
  exact (h.compact (layout_lawful _)).within fun h => ⟨rfl, rfl, h⟩

/-! ### Computing -/

/-- The function is asked for the same keys, and its value is stored in the same slot. -/
theorem Like.computeIfAbsent (h : m.Like missing counted n) (key : κ) (f : κ → Reply ν) :
    (m.computeIfAbsent key f).Matches (Like missing counted) (n.computeIfAbsent key f) := by
  rw [WordMap.computeIfAbsent, WordMap.computeIfAbsent, ← h.locate_eq]
  cases hlocate : m.locate key with
  | endless => exact .fail h .endlessSearch
  | found i =>
      dsimp only
      rw [h.valueAt_eq (h.vacantAt_found hlocate)]
      exact .done h rfl
  | vacant i => exact .run h fun value => h.insertComputed (h.vacantAt_vacant hlocate)

/-- The function is shown the same entry, which is updated in the same slot. -/
theorem Like.computeIfPresent (h : m.Like missing counted n) (key : κ) (f : κ → ν → Reply ν) :
    (m.computeIfPresent key f).Matches (Like missing counted) (n.computeIfPresent key f) := by
  rw [WordMap.computeIfPresent, WordMap.computeIfPresent, ← h.locate_eq]
  cases hlocate : m.locate key with
  | endless => exact .fail h .endlessSearch
  | vacant _ =>
      dsimp only
      rw [h.left, h.right]
      exact .done h rfl
  | found i =>
      have hocc := h.vacantAt_found hlocate
      dsimp only
      rw [h.valueAt_eq hocc]
      exact .run h fun value => .done (h.updateAt hocc value) value

/-- A computation from whatever is under a key leaves maps alike. -/
theorem Like.compute (h : m.Like missing counted n) (key : κ) (f : κ → ν → Reply ν) :
    (m.compute key f).Matches (Like missing counted) (n.compute key f) := by
  rw [WordMap.compute, WordMap.compute, ← h.locate_eq]
  cases hlocate : m.locate key with
  | endless => exact .fail h .endlessSearch
  | found i =>
      have hocc := h.vacantAt_found hlocate
      dsimp only
      rw [h.valueAt_eq hocc]
      exact .run h fun value => .done (h.updateAt hocc value) value
  | vacant i =>
      dsimp only
      rw [h.left, h.right]
      exact .run h fun value => h.insertComputed (h.vacantAt_vacant hlocate)

/-- A merge leaves maps alike. -/
theorem Like.merge (h : m.Like missing counted n) (key : κ) (value : ν) (f : ν → ν → Reply ν) :
    (m.merge key value f).Matches (Like missing counted) (n.merge key value f) := by
  rw [WordMap.merge, WordMap.merge, h.left, h.right, h.refusal_eq, ← h.locate_eq]
  by_cases hvalue : value = missing
  · rw [if_pos hvalue, if_pos hvalue]
    exact .fail h _
  rw [if_neg hvalue, if_neg hvalue]
  cases hlocate : m.locate key with
  | endless => exact .fail h .endlessSearch
  | found i =>
      have hocc := h.vacantAt_found hlocate
      dsimp only
      rw [h.valueAt_eq hocc]
      exact .run h fun combined => .done (h.updateAt hocc combined) combined
  | vacant i => exact ((h.insertAt (h.vacantAt_vacant hlocate) hvalue).map _).quiet

/-! ### Cursors -/

/-- Two cursors of maps with the same missing value. -/
structure Cursor.Like (missing : ν) (counted : Prop) (c d : Cursor κ ν) : Prop where
  left : c.missing = missing
  right : d.missing = missing
  inner : Table.Cursor.Like (inlineLayout missing) counted c.inner d.inner

theorem Cursor.Like.map {c d : Cursor κ ν} (h : c.Like missing counted d) :
    c.map.Like missing counted d.map :=
  ⟨h.left, h.right, h.inner.table⟩

/-- Cursors on maps that are alike answer the same at every step. -/
theorem follows_like (missing : ν) (counted : Prop) :
    CursorInterface.Follows (Cursor.Like (κ := κ) missing counted) where
  next {c d} h := by
    obtain ⟨_, c⟩ := c
    obtain ⟨_, d⟩ := d
    obtain ⟨rfl, rfl, h⟩ := h
    exact ⟨h.next.1, rfl, rfl, h.next.2⟩
  remove {c d} h := by
    obtain ⟨_, c⟩ := c
    obtain ⟨_, d⟩ := d
    obtain ⟨rfl, rfl, h⟩ := h
    have hremoved := h.remove (layout_lawful _)
    exact ⟨hremoved.1, rfl, rfl, hremoved.2⟩
  write value {c d} h := by
    obtain ⟨_, c⟩ := c
    obtain ⟨missing, d⟩ := d
    obtain ⟨rfl, rfl, h⟩ := h
    show (Cursor.setValue ⟨missing, c⟩ value).1 = (Cursor.setValue ⟨missing, d⟩ value).1 ∧
      Cursor.Like missing counted (Cursor.setValue ⟨missing, c⟩ value).2
        (Cursor.setValue ⟨missing, d⟩ value).2
    unfold Cursor.setValue
    split
    · exact ⟨rfl, rfl, rfl, h⟩
    · next hvalue =>
      -- a value that is written is not the missing one, so the slot stays occupied
      obtain ⟨hthere, hwritten⟩ := h.writeCurrent (layout_lawful _) (fun s => (s.1, value))
        fun _ _ => vacant_of_ne hvalue
      exact ⟨congrArg Except.ok hthere, rfl, rfl, hwritten⟩

theorem Like.openCursor (h : m.Like missing counted n) :
    Cursor.Like missing counted m.openCursor n.openCursor := by
  obtain ⟨_, t⟩ := m
  obtain ⟨_, u⟩ := n
  obtain ⟨rfl, rfl, h⟩ := h
  exact ⟨rfl, rfl, h.openCursor⟩

/-! ### Operations -/

/-- Searches that come first end for both maps or for neither. -/
theorem Like.searching {γ α : Type} {c d : Call (WordMap κ ν) γ α} (h : m.Like missing counted n) (key : κ)
    (hcall : c.Matches (Like missing counted) d) :
    (Call.searching [m.locate key] m c).Matches (Like missing counted) (.searching [n.locate key] n d) := by
  rw [h.locate_eq]
  exact hcall.searching h _

/-- **What is left in vacant slots shows in no operation** on a map of words. -/
theorem Like.perform (h : m.Like missing counted n) (op : Operation κ ν) :
    (op.perform m).Matches (Like missing counted) (op.perform n) := by
  cases op with
  | get key => exact h.searching key (.done h (by rw [get, get, getD, getD, h.get?_eq, h.left, h.right]))
  | getD key default => exact h.searching key (.done h (by rw [getD, getD, h.get?_eq]))
  | get? key => exact h.searching key (.done h (by rw [h.get?_eq]))
  | contains key => exact h.searching key (.done h (by rw [contains, contains, h.get?_eq]))
  | containsValue value =>
      exact .done h (by rw [containsValue, containsValue, values, values, h.entries_eq, h.left, h.right])
  | len => exact .done h (congrArg Answer.count h.table.len_eq)
  -- what may be refused is checked before the table is searched
  | insert key value => exact ((h.insert key value).map _).quiet
  | insertIfAbsent key value => exact ((h.insertIfAbsent key value).map _).quiet
  | replace key value => exact ((h.replace key value).map _).quiet
  | replaceIf key old new => exact ((h.replaceIf key old new).map _).quiet
  | insertAll other => exact ((h.insertAll other).map _).quiet
  | erase key =>
      -- removals do not fail, but the search in front of them may never end
      exact h.searching key (.done (h.erase key).2 (congrArg Answer.value (h.erase key).1))
  | erase? key =>
      exact h.searching key (.done (h.erase? key).2 (congrArg Answer.value? (h.erase? key).1))
  | eraseIfValue key value =>
      have herased := h.eraseIfValue key value
      exact h.searching key (.done herased.2 (congrArg Answer.flag herased.1))
  | eraseWhere selects => exact ((h.eraseWhere selects).mapCalls _).map _
  | retain keeps => exact (((h.eraseWhere _).map _).mapCalls _).map _
  | forEach f =>
      have hentries : m.entries = n.entries := h.entries_eq
      have hshown : (m.forEach f).Matches (Like missing counted) (n.forEach f) := by
        rw [WordMap.forEach, WordMap.forEach, hentries]
        exact .forEach h _ _
      exact (hshown.mapCalls _).map _
  | clear => exact .done h.clear rfl
  | compact => exact (h.compact.map _).quiet
  | computeIfAbsent key f => exact ((h.computeIfAbsent key f).mapCalls _).map _
  | computeIfPresent key f => exact ((h.computeIfPresent key f).mapCalls _).map _
  | compute key f => exact ((h.compute key f).mapCalls _).map _
  | merge key value f => exact ((h.merge key value f).mapCalls _).map _
  | cursor script =>
      -- a script is followed step by step
      obtain ⟨hanswers, hcursor⟩ := (follows_like missing counted).runScript script h.openCursor
      exact .done hcursor.map (congrArg Answer.script hanswers)

end LinearProbing.WordMap
