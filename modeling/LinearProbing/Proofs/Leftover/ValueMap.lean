import LinearProbing.Proofs.LawfulSlots
import LinearProbing.Proofs.Leftover.Table
import LinearProbing.Proofs.ValueMap.Operation

/-!
# LinearProbing.Proofs.Leftover.ValueMap

**What is left in the vacant slots of a map to values does not show**: all operations do the same to two maps
with the same hashing and the same policy for nulls whose tables are alike. Of the slots it is used that an
entry is there when one has been put there, whatever its hash (`EntryLayout.Plain`).
-/

namespace LinearProbing

/-- Slots that are vacant when they are empty or left, and hold whatever is put into them. -/
structure EntryLayout.Plain {σ κ ν : Type} (E : EntryLayout σ κ ν) : Prop where
  lawful : E.layout.Lawful
  vacant_occupy : ∀ hash key value, E.layout.vacant (E.occupy hash key value) = false

/-- A slot with a word for a key is vacant or not by itself, whatever key was left in it. -/
theorem wordSlot_plain {κ ν : Type} [SignedWord κ] :
    (EntrySlot.layout : EntryLayout (WordSlot κ ν) κ (Option ν)).Plain where
  lawful := (wordSlot_lawful {}).layout
  vacant_occupy _ _ _ := rfl

namespace ValueMap

variable {σ η κ ν : Type} [EntrySlot σ κ ν] {hashing : η} {policy : NullPolicy} {counted : Prop}
  {m n : ValueMap σ η κ ν} {i : Nat} {key : κ}

/-- Two maps with the same hashing and the same policy for nulls are the same but for what is left in vacant
slots. -/
structure Like (hashing : η) (policy : NullPolicy) (counted : Prop) (m n : ValueMap σ η κ ν) : Prop where
  hashing_eq : m.hashing = hashing ∧ n.hashing = hashing
  policy_eq : m.policy = policy ∧ n.policy = policy
  table : m.table.Like EntrySlot.layout counted n.table

/-- Maps are alike if their tables are. -/
theorem Like.withTable (h : m.Like hashing policy counted n) {t u : Table σ}
    (htable : t.Like EntrySlot.layout counted u) :
    (m.withTable t).Like hashing policy counted (n.withTable u) :=
  ⟨h.hashing_eq, h.policy_eq, htable⟩

/-! ### Reading -/

/-- Values are read from occupied slots only, so what is left over does not show. -/
theorem Like.valueAt?_eq (h : m.Like hashing policy counted n) (i : Nat) : m.valueAt? i = n.valueAt? i :=
  congrArg (Option.bind · Prod.snd) (h.table.entryAt?_eq i)

theorem Like.entries_eq (h : m.Like hashing policy counted n) : m.entries = n.entries := h.table.entries_eq

section Searching

variable [KeyHash η κ] [BEq κ]

omit [BEq κ] in
theorem Like.hashOf_eq (h : m.Like hashing policy counted n) (key : κ) : m.hashOf key = n.hashOf key := by
  rw [hashOf, hashOf, h.hashing_eq.1, h.hashing_eq.2]

/-- Searches end at the same slot, as they go over occupied slots only. -/
theorem Like.locate_eq (h : m.Like hashing policy counted n) (key : κ) : m.locate key = n.locate key := by
  rw [locate, locate, h.hashOf_eq]
  exact h.table.locate_eq _ key

theorem Like.find?_eq (h : m.Like hashing policy counted n) (key : κ) : m.find? key = n.find? key := by
  rw [find?, find?, h.hashOf_eq]
  exact h.table.find?_eq _ key

theorem Like.get?_eq (h : m.Like hashing policy counted n) (key : κ) : m.get? key = n.get? key := by
  rw [get?, get?, h.find?_eq]
  exact congrArg (Option.bind _) (funext h.valueAt?_eq)

/-- A search that finds its key ends at an occupied slot. -/
theorem vacantAt_of_locate_found (h : m.locate key = .found i) :
    (EntrySlot.layout : EntryLayout σ κ (Option ν)).layout.vacantAt m.table.slots i = false :=
  Table.vacantAt_of_locate_found h

/-- A search that finds no key ends at a vacant slot of the table. -/
theorem vacantAt_of_locate_vacant (h : m.locate key = .vacant i) : i < m.table.slots.size ∧
    (EntrySlot.layout : EntryLayout σ κ (Option ν)).layout.vacantAt m.table.slots i = true :=
  Table.vacantAt_of_locate_vacant h

theorem vacantAt_of_find? (h : m.find? key = some i) :
    (EntrySlot.layout : EntryLayout σ κ (Option ν)).layout.vacantAt m.table.slots i = false :=
  Table.vacantAt_of_find? h

end Searching

/-! ### Slots -/

variable (hE : (EntrySlot.layout : EntryLayout σ κ (Option ν)).Plain)
include hE

/-- Writing into the same occupied slot leaves maps alike. -/
theorem Like.setStoredAt (h : m.Like hashing policy counted n)
    (hocc : (EntrySlot.layout : EntryLayout σ κ (Option ν)).layout.vacantAt m.table.slots i = false)
    (stored : Option ν) : (m.setStoredAt i stored).Like hashing policy counted (n.setStoredAt i stored) := by
  have hentry : m.table.entryAt? m.layout i = n.table.entryAt? n.layout i := h.table.entryAt?_eq i
  have hslot : m.layout.layout.slotAt m.table.slots i = n.layout.layout.slotAt n.table.slots i :=
    h.table.slotAt_eq hocc
  rw [ValueMap.setStoredAt, ValueMap.setStoredAt, ← hentry, hslot]
  cases m.table.entryAt? m.layout i with
  | none => exact h
  | some e => exact h.withTable (h.table.setAt hE.lawful hocc (hE.vacant_occupy _ _ _))

/-- An entry that is put into the same vacant slot overwrites what was left over there. -/
theorem Like.insertAt (h : m.Like hashing policy counted n) (hvac : i < m.table.slots.size ∧
      (EntrySlot.layout : EntryLayout σ κ (Option ν)).layout.vacantAt m.table.slots i = true)
    (hash : UInt64) (key : κ) (stored : Option ν) :
    (m.insertAt i hash key stored).Matches (Like hashing policy counted) (n.insertAt i hash key stored) :=
  (h.table.insertAt hE.lawful hvac (hE.vacant_occupy hash key stored)).within h.withTable

theorem Like.insertValueAt (h : m.Like hashing policy counted n) (hvac : i < m.table.slots.size ∧
      (EntrySlot.layout : EntryLayout σ κ (Option ν)).layout.vacantAt m.table.slots i = true)
    (hash : UInt64) (key : κ) (value : ν) :
    (m.insertValueAt i hash key value).Matches (Like hashing policy counted)
      (n.insertValueAt i hash key value) :=
  (h.insertAt hE hvac hash key (some value)).andThen fun i h => h.valueAt?_eq i ▸ .done h _

/-- Removing from the same slot closes the same gap, with different things left over. -/
theorem Like.eraseAt (h : m.Like hashing policy counted n)
    (hocc : (EntrySlot.layout : EntryLayout σ κ (Option ν)).layout.vacantAt m.table.slots i = false) :
    (m.eraseAt i).Like hashing policy counted (n.eraseAt i) :=
  h.withTable (h.table.eraseAt hE.lawful hocc)

/-- An entry that is taken out for the time that a function of the caller computes on it. -/
theorem Like.settle (h : m.Like hashing policy counted n)
    (hocc : (EntrySlot.layout : EntryLayout σ κ (Option ν)).layout.vacantAt m.table.slots i = false)
    (hash : UInt64) (key : κ) (value : Option ν) :
    ((m.takeAt i).settle i hash key value).Matches (Like hashing policy counted)
      ((n.takeAt i).settle i hash key value) := by
  cases value with
  | none => exact .done (h.eraseAt hE hocc) none
  | some v =>
      -- taking an entry out and putting one back is one write into the slot
      have htaken : ∀ m : ValueMap σ η κ ν, (m.takeAt i).settle i hash key (some v) =
          .done (m.withTable (m.table.setAt i (m.layout.occupy hash key (some v))))
            ((m.withTable (m.table.setAt i (m.layout.occupy hash key (some v)))).valueAt? i) := by
        intro m
        rw [← Table.setAt_takeAt]
        rfl
      rw [htaken, htaken]
      have hset := h.withTable (h.table.setAt hE.lawful hocc (hE.vacant_occupy hash key (some v)))
      rw [hset.valueAt?_eq]
      exact .done hset _

/-! ### Storing -/

variable [KeyHash η κ] [BEq κ]

/-- Storing leaves maps alike, and gives back the same former value. -/
theorem Like.store (h : m.Like hashing policy counted n) (key : κ) (stored : Option ν) :
    (m.store key stored).Matches (Like hashing policy counted) (n.store key stored) := by
  rw [ValueMap.store, ValueMap.store, ← h.locate_eq]
  cases hlocate : m.locate key with
  | endless => exact .fail h .endlessSearch
  | found i =>
      dsimp only
      rw [h.valueAt?_eq]
      exact .done (h.setStoredAt hE (vacantAt_of_locate_found hlocate) stored) _
  | vacant i =>
      dsimp only
      rw [h.hashOf_eq]
      exact (h.insertAt hE (vacantAt_of_locate_vacant hlocate) _ key stored).map _

omit hE [KeyHash η κ] [BEq κ] in
theorem Like.refuseNull {α : Type} (h : m.Like hashing policy counted n) :
    (m.refuseNull : Change _ α).Matches (Like hashing policy counted) n.refuseNull :=
  .fail h _

theorem Like.insertNull (h : m.Like hashing policy counted n) (key : κ) :
    (m.insertNull key).Matches (Like hashing policy counted) (n.insertNull key) := by
  rw [ValueMap.insertNull, ValueMap.insertNull, h.policy_eq.1, h.policy_eq.2]
  cases policy with
  | nonNull => exact h.refuseNull
  | nullable => exact h.store hE key none

/-- Storing if absent leaves maps alike. -/
theorem Like.insertIfAbsent (h : m.Like hashing policy counted n) (key : κ) (value : ν) :
    (m.insertIfAbsent key value).Matches (Like hashing policy counted) (n.insertIfAbsent key value) := by
  rw [ValueMap.insertIfAbsent, ValueMap.insertIfAbsent, ← h.locate_eq]
  cases hlocate : m.locate key with
  | endless => exact .fail h .endlessSearch
  | found i =>
      dsimp only
      rw [← h.valueAt?_eq]
      cases m.valueAt? i with
      | some old => exact .done h (some old)
      | none => exact .done (h.setStoredAt hE (vacantAt_of_locate_found hlocate) (some value)) none
  | vacant i =>
      dsimp only
      rw [h.hashOf_eq]
      exact (h.insertAt hE (vacantAt_of_locate_vacant hlocate) _ key (some value)).map _

theorem Like.replace (h : m.Like hashing policy counted n) (key : κ) (value : ν) :
    (m.replace key value).1 = (n.replace key value).1 ∧
      (m.replace key value).2.Like hashing policy counted (n.replace key value).2 := by
  rw [ValueMap.replace, ValueMap.replace, ← h.find?_eq]
  cases hfind : m.find? key with
  | none => exact ⟨rfl, h⟩
  | some i => exact ⟨h.valueAt?_eq i, h.setStoredAt hE (vacantAt_of_find? hfind) (some value)⟩

/-- A conditional replacement answers the same and leaves maps alike. -/
theorem Like.replaceIf [BEq ν] (h : m.Like hashing policy counted n) (key : κ) (old new : ν) :
    (m.replaceIf key old new).1 = (n.replaceIf key old new).1 ∧
      (m.replaceIf key old new).2.Like hashing policy counted (n.replaceIf key old new).2 := by
  rw [ValueMap.replaceIf, ValueMap.replaceIf, ← h.find?_eq]
  cases hfind : m.find? key with
  | none => exact ⟨rfl, h⟩
  | some i =>
      dsimp only
      rw [h.valueAt?_eq]
      split
      · exact ⟨rfl, h.setStoredAt hE (vacantAt_of_find? hfind) (some new)⟩
      · exact ⟨rfl, h⟩

/-- A value that is changed where it is leaves maps alike. -/
theorem Like.modify (h : m.Like hashing policy counted n) (key : κ) (f : ν → ν) :
    (m.modify key f).1 = (n.modify key f).1 ∧
      (m.modify key f).2.Like hashing policy counted (n.modify key f).2 := by
  rw [ValueMap.modify, ValueMap.modify, ← h.find?_eq]
  cases hfind : m.find? key with
  | none => exact ⟨rfl, h⟩
  | some i =>
      dsimp only
      rw [← h.valueAt?_eq]
      cases m.valueAt? i with
      | none => exact ⟨rfl, h⟩
      | some old => exact ⟨rfl, h.setStoredAt hE (vacantAt_of_find? hfind) (some (f old))⟩

/-- The entries of one map, copied into maps that are alike, leave them alike. -/
theorem Like.insertAll (h : m.Like hashing policy counted n) (other : ValueMap σ η κ ν) :
    (m.insertAll other).Matches (Like hashing policy counted) (n.insertAll other) :=
  .forEach _ h fun e _ _ _ h => h.store hE e.1 e.2

theorem Like.extend (h : m.Like hashing policy counted n) (entries : List (κ × ν)) :
    (m.extend entries).Matches (Like hashing policy counted) (n.extend entries) :=
  .forEach _ h fun e _ _ _ h => h.store hE e.1 (some e.2)

/-! ### Removing -/

/-- A removal gives back the same entry. -/
theorem Like.eraseEntry (h : m.Like hashing policy counted n) (key : κ) :
    (m.eraseEntry key).1 = (n.eraseEntry key).1 ∧
      (m.eraseEntry key).2.Like hashing policy counted (n.eraseEntry key).2 := by
  rw [ValueMap.eraseEntry, ValueMap.eraseEntry, ← h.find?_eq]
  cases hfind : m.find? key with
  | none => exact ⟨rfl, h⟩
  | some i => exact ⟨h.table.entryAt?_eq i, h.eraseAt hE (vacantAt_of_find? hfind)⟩

/-- A conditional removal answers the same and leaves maps alike. -/
theorem Like.eraseIfValue [BEq ν] (h : m.Like hashing policy counted n) (key : κ) (value : ν) :
    (m.eraseIfValue key value).1 = (n.eraseIfValue key value).1 ∧
      (m.eraseIfValue key value).2.Like hashing policy counted (n.eraseIfValue key value).2 := by
  rw [ValueMap.eraseIfValue, ValueMap.eraseIfValue, ← h.find?_eq]
  cases hfind : m.find? key with
  | none => exact ⟨rfl, h⟩
  | some i =>
      dsimp only
      rw [h.valueAt?_eq]
      split
      · exact ⟨rfl, h.eraseAt hE (vacantAt_of_find? hfind)⟩
      · exact ⟨rfl, h⟩

omit [KeyHash η κ] [BEq κ] in
/-- A sweep asks the same questions, as it shows occupied slots only. -/
theorem Like.eraseWhere (h : m.Like hashing policy counted n) (selects : κ → Option ν → Reply Bool) :
    (m.eraseWhere selects).Matches (Like hashing policy counted) (n.eraseWhere selects) :=
  (h.table.eraseWhere hE.lawful selects).within h.withTable

omit [KeyHash η κ] [BEq κ] in
/-- All slots are made vacant; what is left over in them may differ. -/
theorem Like.clear (h : m.Like hashing policy counted n) : m.clear.Like hashing policy counted n.clear :=
  h.withTable (h.table.clearWith hE.lawful hE.lawful.vacant_leave)

omit [KeyHash η κ] [BEq κ] in
/-- A compaction moves occupied slots only, and leaves nothing over. -/
theorem Like.compact (h : m.Like hashing policy counted n) :
    m.compact.Matches (Like hashing policy counted) n.compact :=
  (h.table.compact hE.lawful).within h.withTable

/-! ### Computing -/

/-- The function is asked for the same keys, and its value is stored in the same slot. -/
theorem Like.computeIfAbsent (h : m.Like hashing policy counted n) (key : κ) (f : κ → Reply (Option ν)) :
    (m.computeIfAbsent key f).Matches (Like hashing policy counted) (n.computeIfAbsent key f) := by
  rw [ValueMap.computeIfAbsent, ValueMap.computeIfAbsent, ← h.locate_eq]
  cases hlocate : m.locate key with
  | endless => exact .fail h .endlessSearch
  | found i =>
      dsimp only
      rw [← h.valueAt?_eq]
      -- only a null is computed anew
      cases m.valueAt? i with
      | some old => exact .done h rfl
      | none =>
          refine .run h fun value => ?_
          cases value with
          | none => exact .done h none
          | some value =>
              have hset := h.setStoredAt hE (vacantAt_of_locate_found hlocate) (some value)
              dsimp only
              rw [hset.valueAt?_eq]
              exact .done hset _
  | vacant i =>
      refine .run h fun value => ?_
      cases value with
      | none => exact .done h none
      | some value =>
          dsimp only
          rw [h.hashOf_eq]
          exact h.insertValueAt hE (vacantAt_of_locate_vacant hlocate) _ key value

/-- The function is shown the same entry, which is settled in the same slot. -/
theorem Like.computeIfPresent (h : m.Like hashing policy counted n) (key : κ) (f : κ → ν → Reply (Option ν)) :
    (m.computeIfPresent key f).Matches (Like hashing policy counted) (n.computeIfPresent key f) := by
  rw [ValueMap.computeIfPresent, ValueMap.computeIfPresent, ← h.locate_eq]
  cases hlocate : m.locate key with
  | endless => exact .fail h .endlessSearch
  | vacant _ => exact .done h rfl
  | found i =>
      have hocc := vacantAt_of_locate_found hlocate
      have hentry : m.table.entryAt? m.layout i = n.table.entryAt? n.layout i := h.table.entryAt?_eq i
      -- the hash is read from the slot too, and an occupied slot has nothing left over in it
      have hslot : m.layout.layout.slotAt m.table.slots i = n.layout.layout.slotAt n.table.slots i :=
        h.table.slotAt_eq hocc
      dsimp only
      rw [← hentry, hslot]
      cases m.table.entryAt? m.layout i with
      | none => exact .done h rfl
      | some e =>
          obtain ⟨stored, old?⟩ := e
          cases old? with
          | none => exact .done h rfl
          | some old => exact .run (h.eraseAt hE hocc) fun value => h.settle hE hocc _ stored value

/-- A computation from whatever is under a key leaves maps alike. -/
theorem Like.compute (h : m.Like hashing policy counted n) (key : κ) (f : κ → Option ν → Reply (Option ν)) :
    (m.compute key f).Matches (Like hashing policy counted) (n.compute key f) := by
  rw [ValueMap.compute, ValueMap.compute, ← h.locate_eq, h.hashOf_eq]
  cases hlocate : m.locate key with
  | endless => exact .fail h .endlessSearch
  | found i =>
      have hocc := vacantAt_of_locate_found hlocate
      dsimp only
      rw [h.valueAt?_eq]
      exact .run (h.eraseAt hE hocc) fun value => h.settle hE hocc _ key value
  | vacant i =>
      refine .run h fun value => ?_
      cases value with
      | none => exact .done h none
      | some value => exact h.insertValueAt hE (vacantAt_of_locate_vacant hlocate) _ key value

/-- A merge leaves maps alike. -/
theorem Like.merge (h : m.Like hashing policy counted n) (key : κ) (value : ν)
    (f : ν → ν → Reply (Option ν)) :
    (m.merge key value f).Matches (Like hashing policy counted) (n.merge key value f) := by
  rw [ValueMap.merge, ValueMap.merge, ← h.locate_eq, h.hashOf_eq]
  cases hlocate : m.locate key with
  | endless => exact .fail h .endlessSearch
  | found i =>
      have hocc := vacantAt_of_locate_found hlocate
      dsimp only
      rw [← h.valueAt?_eq]
      cases m.valueAt? i with
      | none => exact (h.settle hE hocc _ key (some value)).quiet
      | some old => exact .run (h.eraseAt hE hocc) fun value => h.settle hE hocc _ key value
  | vacant i => exact (h.insertValueAt hE (vacantAt_of_locate_vacant hlocate) _ key value).quiet

/-! ### Cursors -/

omit [KeyHash η κ] [BEq κ] hE

/-- Two cursors of maps with the same hashing and the same policy for nulls. -/
structure Cursor.Like (hashing : η) (policy : NullPolicy) (counted : Prop) (c d : Cursor σ η κ ν) : Prop where
  hashing_eq : c.source.hashing = hashing ∧ d.source.hashing = hashing
  policy_eq : c.source.policy = policy ∧ d.source.policy = policy
  inner : Table.Cursor.Like EntrySlot.layout counted c.inner d.inner

theorem Cursor.Like.map {c d : Cursor σ η κ ν} (h : c.Like hashing policy counted d) :
    c.map.Like hashing policy counted d.map :=
  ⟨h.hashing_eq, h.policy_eq, h.inner.table⟩

include hE

/-- Cursors that are alike write into the same slot. -/
theorem Cursor.Like.setValue {c d : Cursor σ η κ ν} (h : c.Like hashing policy counted d) (value : ν) :
    (c.setValue value).1 = (d.setValue value).1 ∧
      (c.setValue value).2.Like hashing policy counted (d.setValue value).2 := by
  rw [Cursor.setValue, Cursor.setValue, ← h.inner.scan_eq]
  cases hcurrent : c.inner.scan.current with
  | none => exact ⟨rfl, h⟩
  | some i =>
      dsimp only
      rw [← h.map.valueAt?_eq]
      cases hvalue : c.map.valueAt? i with
      | none => exact ⟨rfl, h⟩
      | some old =>
          have hocc := h.inner.current i hcurrent
          have hset := h.map.setStoredAt hE hocc (some value)
          have hscan : ∀ c : Cursor σ η κ ν, (c.map.setStoredAt i (some value)).table.scan =
              c.inner.table.scan := by
            intro c
            unfold ValueMap.setStoredAt
            split <;> rfl
          refine ⟨rfl, h.hashing_eq, h.policy_eq, ?_, hset.table, fun j hj => ?_⟩
          · show c.inner.own.getD (c.map.setStoredAt i (some value)).table.scan =
              d.inner.own.getD (d.map.setStoredAt i (some value)).table.scan
            rw [hscan, hscan]
            exact h.inner.scan_eq
          · -- what is overwritten is an entry still
            change (c.inner.own.getD (c.map.setStoredAt i (some value)).table.scan).current = some j at hj
            rw [hscan] at hj
            cases hcurrent.symm.trans hj
            obtain ⟨e, hentry, -⟩ := Option.bind_eq_some_iff.mp hvalue
            show EntrySlot.layout.layout.vacantAt (c.map.setStoredAt i (some value)).table.slots i = false
            rw [ValueMap.setStoredAt, hentry]
            exact (Layout.vacantAt_setIfInBounds_self (hE.lawful.lt_size hocc)).trans
              (hE.vacant_occupy _ _ _)

/-- Cursors on maps that are alike answer the same at every step. -/
theorem follows_like (hashing : η) (policy : NullPolicy) (counted : Prop) :
    CursorInterface.Follows (Cursor.Like (σ := σ) (κ := κ) (ν := ν) hashing policy counted) where
  next h := ⟨h.inner.next.1, h.hashing_eq, h.policy_eq, h.inner.next.2⟩
  remove h :=
    have hremoved := h.inner.remove hE.lawful
    ⟨hremoved.1, h.hashing_eq, h.policy_eq, hremoved.2⟩
  write value _ _ h :=
    have hwritten := h.setValue hE value
    ⟨congrArg Except.ok hwritten.1, hwritten.2⟩

omit hE in
/-- New cursors on maps that are alike start below the same vacant slot. -/
theorem Like.openCursor (h : m.Like hashing policy counted n) :
    m.openCursor.Like hashing policy counted n.openCursor :=
  ⟨h.hashing_eq, h.policy_eq, h.table.openCursor⟩

/-! ### Operations -/

variable [KeyHash η κ] [BEq κ] [BEq ν]

omit hE [BEq ν] in
/-- Searches that come first end for both maps or for neither. -/
theorem Like.searching {γ α : Type} {c d : Call (ValueMap σ η κ ν) γ α} (h : m.Like hashing policy counted n)
    (key : κ) (hcall : c.Matches (Like hashing policy counted) d) :
    (Call.searching [m.locate key] m c).Matches (Like hashing policy counted)
      (.searching [n.locate key] n d) := by
  rw [h.locate_eq]
  exact hcall.searching h _

/-- **What is left in vacant slots shows in no operation** on a map to values. -/
theorem Like.perform (h : m.Like hashing policy counted n) (op : Operation σ η κ ν) :
    (op.perform m).Matches (Like hashing policy counted) (op.perform n) := by
  cases op with
  | get? key => exact h.searching key (.done h (congrArg Answer.value? (h.get?_eq key)))
  | contains key => exact h.searching key (.done h (by rw [contains, contains, h.find?_eq]))
  | containsValue value => exact .done h (by rw [containsValue, containsValue, values, values, h.entries_eq])
  | len => exact .done h (congrArg Answer.count h.table.len_eq)
  | insert key value => exact ((h.store hE key (some value)).map _).quiet
  | insertNull key => exact ((h.insertNull hE key).map _).quiet
  | insertIfAbsent key value => exact ((h.insertIfAbsent hE key value).map _).quiet
  | replace key value =>
      have hreplaced := h.replace hE key value
      exact h.searching key (.done hreplaced.2 (congrArg Answer.value? hreplaced.1))
  | replaceIf key old new =>
      have hreplaced := h.replaceIf hE key old new
      exact h.searching key (.done hreplaced.2 (congrArg Answer.flag hreplaced.1))
  | modify key f =>
      have hmodified := h.modify hE key f
      exact h.searching key (.done hmodified.2 (congrArg Answer.value? hmodified.1))
  | insertAll other => exact ((h.insertAll hE other).map _).quiet
  | extend entries => exact ((h.extend hE entries).map _).quiet
  | erase key =>
      -- the value is read off the entry that is given back
      have herased := h.eraseEntry hE key
      exact h.searching key
        (.done herased.2 (congrArg (fun e => Answer.value? (Option.bind e Prod.snd)) herased.1))
  | eraseEntry key =>
      have herased := h.eraseEntry hE key
      exact h.searching key (.done herased.2 (congrArg Answer.found herased.1))
  | eraseIfValue key value =>
      have herased := h.eraseIfValue hE key value
      exact h.searching key (.done herased.2 (congrArg Answer.flag herased.1))
  | eraseWhere selects => exact ((h.eraseWhere hE selects).mapCalls _).map _
  | retain keeps => exact (((h.eraseWhere hE _).map _).mapCalls _).map _
  | forEach f =>
      have hentries : m.entries = n.entries := h.entries_eq
      have hshown : (m.forEach f).Matches (Like hashing policy counted) (n.forEach f) := by
        rw [ValueMap.forEach, ValueMap.forEach, hentries]
        exact .forEach h _ _
      exact (hshown.mapCalls _).map _
  | clear => exact .done (h.clear hE) rfl
  | compact => exact ((h.compact hE).map _).quiet
  | copy => exact .done (h.withTable (h.table.congr rfl rfl rfl rfl rfl rfl)) rfl
  | computeIfAbsent key f => exact ((h.computeIfAbsent hE key f).mapCalls _).map _
  | computeIfPresent key f => exact ((h.computeIfPresent hE key f).mapCalls _).map _
  | compute key f => exact ((h.compute hE key f).mapCalls _).map _
  | merge key value f => exact ((h.merge hE key value f).mapCalls _).map _
  | cursor script =>
      -- a script is followed step by step
      obtain ⟨hanswers, hcursor⟩ := (follows_like hE hashing policy counted).runScript script h.openCursor
      exact .done hcursor.map (congrArg Answer.script hanswers)

end ValueMap

end LinearProbing
