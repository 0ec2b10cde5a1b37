import LinearProbing.Proofs.LawfulSlots
import LinearProbing.Proofs.Restoring.Runs
import LinearProbing.Proofs.Restoring.Table
import LinearProbing.Proofs.ValueMap.Represents

/-!
# LinearProbing.Proofs.Restoring.ValueMap

**Putting a key into a map to values and taking it out again restores the map.** The key may be given in other
spellings that are equal to it. Operations that concern only the key leave the map as it was but for an entry
under it (`UpToKey.perform`), and operations that remove the key leave it as it was (`UpToKey.restored`). A
function of the caller that panics while it computes on the entry removes it, too.
-/

namespace LinearProbing.ValueMap

variable {σ η κ ν : Type} [EntrySlot σ κ ν] [BEq κ]

/-- The operation reads or copies the map, or it stores, changes or removes nothing but the entry under a
key. -/
def Operation.Concerns (key : κ) (op : Operation σ η κ ν) (m : ValueMap σ η κ ν) : Prop :=
  match op with
  | .get? _ | .contains _ | .containsValue _ | .len | .forEach _ | .copy => True
  | .insert k _ | .insertNull k | .insertIfAbsent k _ | .replace k _ | .replaceIf k .. | .modify k _
  | .erase k | .eraseEntry k | .eraseIfValue k _ | .computeIfAbsent k _ | .computeIfPresent k _ | .compute k _
  | .merge k .. => (k == key) = true
  | .insertAll other => ∀ e ∈ other.entries, (e.1 == key) = true
  | .extend entries => ∀ e ∈ entries, (e.1 == key) = true
  | .eraseWhere selects => ∀ k stored, selects k stored = .answers true → (k == key) = true
  | .retain keeps => ∀ k stored, keeps k stored = .answers false → (k == key) = true
  | .clear | .compact => False
  | .cursor script => CursorInterface.Confined (fun e => (e.1 == key) = true) script m.openCursor

/-- The operation removes a key, whether by itself or because a function of the caller computes no value from
the value of the entry. -/
def Operation.Removes [KeyHash η κ] [BEq ν] (key : κ) (op : Operation σ η κ ν) (m : ValueMap σ η κ ν) :
    Prop :=
  match op with
  | .erase k | .eraseEntry k => (k == key) = true
  | .eraseIfValue k value => (k == key) = true ∧ (m.get? k == some value) = true
  | .computeIfPresent k f => (k == key) = true ∧
    ∃ old, m.get? k = some old ∧ ∀ stored value, (stored == key) = true → f stored old ≠ .answers (some value)
  | .compute k f => (k == key) = true ∧ ∀ value, f k (m.get? k) ≠ .answers (some value)
  | .merge k value f => (k == key) = true ∧
    ∃ old, m.get? k = some old ∧ ∀ combined, f old value ≠ .answers (some combined)
  | .cursor script => CursorInterface.EndsWithRemoval (fun e => (e.1 == key) = true) script m.openCursor
  | _ => False

variable [KeyHash η κ] {hashing : η} {t : Table σ} {m : ValueMap σ η κ ν} {key k k' : κ} {place i : Nat}

/-- The key is absent from a table, and there is room for it. -/
abbrev RoomFor (hashing : η) (t : Table σ) (key : κ) (place : Nat) : Prop :=
  t.RoomFor (EntrySlot.layout : EntryLayout σ κ (Option ν)) (KeyHash.hash hashing) EntryLayout.AnyEntry key
    place

/-- The table of a map is `t`, or `t` with an entry under the key, but for what is left in vacant slots. -/
structure UpToKey (hashing : η) (t : Table σ) (key : κ) (place : Nat) (m : ValueMap σ η κ ν) : Prop where
  hashing_eq : m.hashing = hashing
  table : t.UpToKey EntrySlot.layout (KeyHash.hash hashing) EntryLayout.AnyEntry key place m.table

/-- The table of a map is `t`, but for what is left in vacant slots. -/
abbrev Restored (hashing : η) (t : Table σ) (m : ValueMap σ η κ ν) : Prop :=
  m.hashing = hashing ∧ t.Like EntrySlot.layout False m.table

theorem Restored.upToKey (h : m.Restored hashing t) : m.UpToKey hashing t key place := ⟨h.1, .absent h.2⟩

variable [EquivBEq κ] (hE : LawfulSlots σ hashing) (room : RoomFor hashing t key place)
include hE room

/-! ### Slots -/

/-- Where the key is not found, the map is as it was. -/
theorem UpToKey.restored_of_find? (h : m.UpToKey hashing t key place) (hkey : (k == key) = true)
    (hfind : m.find? k = none) : m.Restored hashing t := by
  obtain ⟨rfl, h⟩ := h
  exact ⟨rfl, h.like_of_find? hE room hkey hfind⟩

/-- **Removing the key restores the table**: the gap is closed as if the entry had never been there. -/
theorem UpToKey.restored_eraseAt (h : m.UpToKey hashing t key place) (hkey : (k == key) = true)
    (hfind : m.find? k = some i) : (m.eraseAt i).Restored hashing t := by
  obtain ⟨rfl, h⟩ := h
  obtain ⟨e, he, hsame⟩ := Table.exists_entryAt?_of_find? hfind hkey
  exact ⟨rfl, h.eraseAt hE room he hsame⟩

omit [EquivBEq κ] in
/-- Writing another value under the key leaves the other entries where they are. -/
theorem UpToKey.setStoredAt (h : m.UpToKey hashing t key place)
    (he : ∀ e, m.table.entryAt? EntrySlot.layout i = some e → (e.1 == key) = true) (stored : Option ν) :
    (m.setStoredAt i stored).UpToKey hashing t key place := by
  obtain ⟨rfl, h⟩ := h
  rw [ValueMap.setStoredAt]
  cases hentry : m.table.entryAt? m.layout i with
  | none => exact ⟨rfl, h⟩
  | some e =>
      have hkey := he e hentry
      have hset := h.setAt room hentry hkey hkey (EntryLayout.anyEntry e.1 stored)
      rw [← h.hash_eq hE room hentry hkey] at hset
      exact ⟨rfl, hset⟩

omit [EquivBEq κ] in
/-- The slot that was written holds the stored key with its new value. -/
theorem UpToKey.entryAt?_setStoredAt (h : m.UpToKey hashing t key place) {e : κ × Option ν}
    (he : m.table.entryAt? EntrySlot.layout i = some e) (hkey : (e.1 == key) = true) (stored : Option ν) :
    (m.setStoredAt i stored).table.entryAt? EntrySlot.layout i = some (e.1, stored) := by
  have hentry : m.table.entryAt? m.layout i = some e := he
  rw [ValueMap.setStoredAt, hentry]
  dsimp only
  rw [h.table.hash_eq hE room he hkey]
  exact (Table.entryAt?_setAt_self (hE.lt_size he) _).trans (hE.entryIn?_occupy _ _ (EntryLayout.anyEntry ..))

omit hE room in
/-- What is found under an equal key is the entry. -/
theorem key_of_find? (hkey : (k == key) = true) (hfind : m.find? k = some i) :
    ∀ e, m.table.entryAt? EntrySlot.layout i = some e → (e.1 == key) = true := by
  intro e he
  obtain ⟨e', he', hsame⟩ := Table.exists_entryAt?_of_find? hfind hkey
  cases he.symm.trans he'
  exact hsame

/-- The key is inserted where its place is kept. -/
theorem UpToKey.insertAt (h : m.UpToKey hashing t key place) (hkey : (k == key) = true)
    (hlocate : m.locate k = .vacant i) (stored : Option ν) :
    (m.insertAt i (m.hashOf k) k stored).state.UpToKey hashing t key place := by
  obtain ⟨rfl, h⟩ := h
  exact ⟨rfl, h.insertAt hE room hkey (EntryLayout.anyEntry k stored) hlocate⟩

theorem UpToKey.insertValueAt (h : m.UpToKey hashing t key place) (hkey : (k == key) = true)
    (hlocate : m.locate k = .vacant i) (value : ν) :
    (m.insertValueAt i (m.hashOf k) k value).state.UpToKey hashing t key place := by
  rw [ValueMap.insertValueAt, Change.andThen]
  split
  · exact h.insertAt hE room hkey hlocate (some value)
  · exact h.insertAt hE room hkey hlocate (some value)

/-- An entry that was taken out comes back, under an equal key, or its removal is finished. -/
theorem UpToKey.settle (h : m.UpToKey hashing t key place) (hkey : (k == key) = true)
    (hfind : m.find? k = some i) (hkey' : (k' == key) = true) (value : Option ν) :
    ((m.takeAt i).settle i (KeyHash.hash hashing k') k' value).state.UpToKey hashing t key place := by
  cases value with
  | none => exact (h.restored_eraseAt hE room hkey hfind).upToKey
  | some v =>
      obtain ⟨rfl, h⟩ := h
      obtain ⟨e, he, hsame⟩ := Table.exists_entryAt?_of_find? hfind hkey
      refine ⟨rfl, ?_⟩
      have hset := h.setAt room he hsame hkey' (EntryLayout.anyEntry k' (some v))
      rwa [← Table.setAt_takeAt] at hset

/-! ### Storing -/

/-- Storing under the key leaves the other entries where they are. -/
theorem UpToKey.store (h : m.UpToKey hashing t key place) (hkey : (k == key) = true) (stored : Option ν) :
    (m.store k stored).state.UpToKey hashing t key place := by
  rw [ValueMap.store]
  cases hlocate : m.locate k with
  | endless => exact h
  | found i => exact h.setStoredAt hE room (key_of_find? hkey (Table.find?_of_found hlocate)) stored
  | vacant i => exact h.insertAt hE room hkey hlocate stored

/-- A null takes the place of the key, or is refused. -/
theorem UpToKey.insertNull (h : m.UpToKey hashing t key place) (hkey : (k == key) = true) :
    (m.insertNull k).state.UpToKey hashing t key place := by
  rw [ValueMap.insertNull]
  cases m.policy with
  | nonNull => exact h
  | nullable => exact h.store hE room hkey none

/-- Storing in the place of a null, or of nothing, leaves the other entries where they are. -/
theorem UpToKey.insertIfAbsent (h : m.UpToKey hashing t key place) (hkey : (k == key) = true) (value : ν) :
    (m.insertIfAbsent k value).state.UpToKey hashing t key place := by
  rw [ValueMap.insertIfAbsent]
  cases hlocate : m.locate k with
  | endless => exact h
  | found i =>
      dsimp only
      cases m.valueAt? i with
      | some old => exact h
      | none => exact h.setStoredAt hE room (key_of_find? hkey (Table.find?_of_found hlocate)) (some value)
  | vacant i => exact h.insertAt hE room hkey hlocate (some value)

theorem UpToKey.replace (h : m.UpToKey hashing t key place) (hkey : (k == key) = true) (value : ν) :
    (m.replace k value).2.UpToKey hashing t key place := by
  rw [ValueMap.replace]
  cases hfind : m.find? k with
  | none => exact h
  | some i => exact h.setStoredAt hE room (key_of_find? hkey hfind) (some value)

theorem UpToKey.replaceIf [BEq ν] (h : m.UpToKey hashing t key place) (hkey : (k == key) = true)
    (old new : ν) :
    (m.replaceIf k old new).2.UpToKey hashing t key place := by
  rw [ValueMap.replaceIf]
  cases hfind : m.find? k with
  | none => exact h
  | some i =>
      dsimp only
      split
      · exact h.setStoredAt hE room (key_of_find? hkey hfind) (some new)
      · exact h

/-- Changing the value of the key leaves the other entries where they are. -/
theorem UpToKey.modify (h : m.UpToKey hashing t key place) (hkey : (k == key) = true) (f : ν → ν) :
    (m.modify k f).2.UpToKey hashing t key place := by
  rw [ValueMap.modify]
  cases hfind : m.find? k with
  | none => exact h
  | some i =>
      dsimp only
      cases m.valueAt? i with
      | none => exact h
      | some old => exact h.setStoredAt hE room (key_of_find? hkey hfind) (some (f old))

/-! ### Removing -/

/-- Whether the key was there or not, after its removal the table is what it was. -/
theorem UpToKey.restored_eraseEntry (h : m.UpToKey hashing t key place) (hkey : (k == key) = true) :
    (m.eraseEntry k).2.Restored hashing t := by
  rw [ValueMap.eraseEntry]
  cases hfind : m.find? k with
  | none => exact h.restored_of_find? hE room hkey hfind
  | some i => exact h.restored_eraseAt hE room hkey hfind

theorem UpToKey.eraseIfValue [BEq ν] (h : m.UpToKey hashing t key place) (hkey : (k == key) = true)
    (value : ν) :
    (m.eraseIfValue k value).2.UpToKey hashing t key place := by
  rw [ValueMap.eraseIfValue]
  cases hfind : m.find? k with
  | none => exact h
  | some i =>
      dsimp only
      split
      · exact (h.restored_eraseAt hE room hkey hfind).upToKey
      · exact h

/-- Removing the value that is there restores the table. -/
theorem UpToKey.restored_eraseIfValue [BEq ν] (h : m.UpToKey hashing t key place) (hkey : (k == key) = true)
    {value : ν} (hvalue : (m.get? k == some value) = true) :
    (m.eraseIfValue k value).2.Restored hashing t := by
  cases hfind : m.find? k with
  | none =>
      rw [get?, hfind] at hvalue
      cases hvalue
  | some i =>
      have hstored : (m.valueAt? i == some value) = true := by rwa [get?, hfind] at hvalue
      rw [ValueMap.eraseIfValue, hfind]
      dsimp only
      rw [if_pos hstored]
      exact h.restored_eraseAt hE room hkey hfind

omit [EquivBEq κ] in
/-- A sweep that selects no other key removes at most this one. -/
theorem UpToKey.eraseWhere (h : m.UpToKey hashing t key place) {selects : κ → Option ν → Reply Bool}
    (hselects : ∀ k stored, selects k stored = .answers true → (k == key) = true) :
    (m.eraseWhere selects).state.UpToKey hashing t key place := by
  obtain ⟨rfl, h⟩ := h
  exact ⟨rfl, h.sweep hE room hselects _ _ _⟩

/-! ### Computing -/

/-- A computed value is written or inserted under the key, or nothing happens. -/
theorem UpToKey.computeIfAbsent (h : m.UpToKey hashing t key place) (hkey : (k == key) = true)
    (f : κ → Reply (Option ν)) : (m.computeIfAbsent k f).state.UpToKey hashing t key place := by
  rw [ValueMap.computeIfAbsent]
  cases hlocate : m.locate k with
  | endless => exact h
  | found i =>
      dsimp only
      -- a value is answered without asking the function; a null counts as absent
      cases m.valueAt? i with
      | some old => exact h
      | none =>
          refine Call.state_run h fun value => ?_
          cases value with
          | none => exact h
          | some value =>
              exact h.setStoredAt hE room (key_of_find? hkey (Table.find?_of_found hlocate)) (some value)
  | vacant i =>
      refine Call.state_run h fun value => ?_
      cases value with
      | none => exact h
      | some value => exact h.insertValueAt hE room hkey hlocate value

/-- The entry of the key is out of its slot while the function runs, and then settled in it. -/
theorem UpToKey.computeIfPresent (h : m.UpToKey hashing t key place) (hkey : (k == key) = true)
    (f : κ → ν → Reply (Option ν)) : (m.computeIfPresent k f).state.UpToKey hashing t key place := by
  rw [ValueMap.computeIfPresent]
  cases hlocate : m.locate k with
  | vacant | endless => exact h
  | found i =>
      have hfind : m.find? k = some i := Table.find?_of_found hlocate
      dsimp only
      cases hentry : m.table.entryAt? m.layout i with
      | none => exact h
      | some e =>
          obtain ⟨stored, old?⟩ := e
          cases old? with
          | none => exact h
          | some old =>
              have hstored : (stored == key) = true := key_of_find? hkey hfind _ hentry
              -- the slot has the hash of its stored key, which equals this one
              have hhash : m.layout.hash (m.layout.layout.slotAt m.table.slots i) =
                  KeyHash.hash hashing stored := h.table.hash_eq hE room hentry hstored
              dsimp only
              rw [hhash]
              exact Call.state_run (h.restored_eraseAt hE room hkey hfind).upToKey
                (h.settle hE room hkey hfind hstored)

/-- A computation for the key leaves the other entries where they are, whatever it makes. -/
theorem UpToKey.compute (h : m.UpToKey hashing t key place) (hkey : (k == key) = true)
    (f : κ → Option ν → Reply (Option ν)) : (m.compute k f).state.UpToKey hashing t key place := by
  have hhash : m.hashOf k = KeyHash.hash hashing k := by rw [hashOf, h.hashing_eq]
  rw [ValueMap.compute]
  cases hlocate : m.locate k with
  | endless => exact h
  | found i =>
      have hfind := Table.find?_of_found hlocate
      dsimp only
      rw [hhash]
      -- a panic leaves the key removed
      exact Call.state_run (h.restored_eraseAt hE room hkey hfind).upToKey (h.settle hE room hkey hfind hkey)
  | vacant i =>
      refine Call.state_run h fun value => ?_
      cases value with
      | none => exact h
      | some value => exact h.insertValueAt hE room hkey hlocate value

/-- A merge under the key leaves the other entries where they are. -/
theorem UpToKey.merge (h : m.UpToKey hashing t key place) (hkey : (k == key) = true) (value : ν)
    (f : ν → ν → Reply (Option ν)) : (m.merge k value f).state.UpToKey hashing t key place := by
  have hhash : m.hashOf k = KeyHash.hash hashing k := by rw [hashOf, h.hashing_eq]
  rw [ValueMap.merge]
  cases hlocate : m.locate k with
  | endless => exact h
  | found i =>
      have hfind := Table.find?_of_found hlocate
      dsimp only
      rw [hhash]
      -- a null is replaced without asking the function
      cases m.valueAt? i with
      | none => exact h.settle hE room hkey hfind hkey (some value)
      | some old =>
          exact Call.state_run (h.restored_eraseAt hE room hkey hfind).upToKey
            (h.settle hE room hkey hfind hkey)
  | vacant i => exact h.insertValueAt hE room hkey hlocate value

/-- A function of the caller that computes no value, or panics, while the entry is out of its slot. -/
theorem UpToKey.restored_run {γ : Type} (h : m.UpToKey hashing t key place) (hkey : (k == key) = true)
    (hfind : m.find? k = some i) {reply : Reply (Option ν)} (hreply : ∀ value, reply ≠ .answers (some value))
    (arguments : γ) (hash : UInt64) (k' : κ) :
    (Call.run arguments reply ((m.takeAt i).closeTaken i) ((m.takeAt i).settle i hash k')).state.Restored
      hashing t := by
  have herased := h.restored_eraseAt hE room hkey hfind
  cases reply with
  | panics => exact herased
  | answers value =>
      cases value with
      | none => exact herased
      | some value => exact absurd rfl (hreply value)

/-- A function that makes no value of the former one, or panics, restores the table. -/
theorem UpToKey.restored_computeIfPresent (h : m.UpToKey hashing t key place) (hkey : (k == key) = true)
    {f : κ → ν → Reply (Option ν)} {old : ν} (hold : m.get? k = some old)
    (hf : ∀ stored value, (stored == key) = true → f stored old ≠ .answers (some value)) :
    (m.computeIfPresent k f).state.Restored hashing t := by
  obtain ⟨i, hfind, hvalue⟩ := Option.bind_eq_some_iff.mp hold
  obtain ⟨⟨stored, _⟩, hentry, rfl⟩ := Option.bind_eq_some_iff.mp hvalue
  rw [ValueMap.computeIfPresent, show m.locate k = .found i from Table.locate_of_find? hfind]
  dsimp only
  rw [hentry]
  exact h.restored_run hE room hkey hfind (fun value => hf stored value (key_of_find? hkey hfind _ hentry)) ..

/-- A function that makes no value, or panics, restores the table, whether the key was there or not. -/
theorem UpToKey.restored_compute (h : m.UpToKey hashing t key place) (hkey : (k == key) = true)
    {f : κ → Option ν → Reply (Option ν)} (hf : ∀ value, f k (m.get? k) ≠ .answers (some value)) :
    (m.compute k f).state.Restored hashing t := by
  rw [ValueMap.compute]
  cases hlocate : m.locate k with
  | endless => exact h.restored_of_find? hE room hkey (Table.find?_of_endless hlocate)
  | found i =>
      have hfind : m.find? k = some i := Table.find?_of_found hlocate
      rw [get?, hfind] at hf
      exact h.restored_run hE room hkey hfind hf ..
  | vacant i =>
      have hfind : m.find? k = none := Table.find?_of_vacant hlocate
      have hsame := h.restored_of_find? hE room hkey hfind
      rw [get?, hfind] at hf
      show (Call.run (k, none) (f k none) m fun value => _).state.Restored hashing t
      -- nothing was there, and nothing is inserted
      cases hreply : f k none with
      | panics => exact hsame
      | answers value =>
          cases value with
          | none => exact hsame
          | some value => exact absurd hreply (hf value)

/-- A merge that makes no value, or panics, restores the table. -/
theorem UpToKey.restored_merge (h : m.UpToKey hashing t key place) (hkey : (k == key) = true) {value old : ν}
    {f : ν → ν → Reply (Option ν)} (hold : m.get? k = some old)
    (hf : ∀ combined, f old value ≠ .answers (some combined)) :
    (m.merge k value f).state.Restored hashing t := by
  obtain ⟨i, hfind, hvalue⟩ := Option.bind_eq_some_iff.mp hold
  have hlocate : m.locate k = .found i := Table.locate_of_find? hfind
  rw [ValueMap.merge, hlocate]
  dsimp only
  rw [hvalue]
  exact h.restored_run hE room hkey hfind hf ..

/-! ### Cursors -/

omit hE room in
/-- A cursor over such a map. -/
structure Cursor.UpToKey (hashing : η) (t : Table σ) (key : κ) (place : Nat) (c : Cursor σ η κ ν) : Prop where
  hashing_eq : c.source.hashing = hashing
  inner : Table.Cursor.UpToKey EntrySlot.layout (KeyHash.hash hashing) EntryLayout.AnyEntry t key place
    c.inner

omit [EquivBEq κ] hE room in
theorem Cursor.UpToKey.map {c : Cursor σ η κ ν} (h : c.UpToKey hashing t key place) :
    c.map.UpToKey hashing t key place :=
  ⟨h.hashing_eq, h.inner.table⟩

omit [EquivBEq κ] in
/-- A cursor that removes no other key restores the table with its removal. -/
theorem Cursor.UpToKey.remove {c : Cursor σ η κ ν} (h : c.UpToKey hashing t key place)
    (hconfined : ∀ e ∈ c.remove.1, (e.1 == key) = true) : c.remove.2.UpToKey hashing t key place ∧
      (c.remove.1.isSome → c.remove.2.map.Restored hashing t) := by
  obtain ⟨hremoved, hrestored⟩ := h.inner.remove hE room hconfined
  exact ⟨⟨h.hashing_eq, hremoved⟩, fun hsome => ⟨h.hashing_eq, hrestored hsome⟩⟩

omit [EquivBEq κ] in
/-- A cursor that is at no other key writes only under this one. -/
theorem Cursor.UpToKey.setValue {c : Cursor σ η κ ν} (h : c.UpToKey hashing t key place) (value : ν)
    (hconfined : ∀ e ∈ c.remove.1, (e.1 == key) = true) :
    (c.setValue value).2.UpToKey hashing t key place := by
  rw [Cursor.setValue]
  cases hscan : c.inner.scan.current with
  | none => exact h
  | some i =>
      dsimp only
      cases hvalue : c.map.valueAt? i with
      | none => exact h
      | some old =>
          -- the entry that the cursor is at is the one that it would remove, so its key is this one
          obtain ⟨e, he, hremoved⟩ := h.inner.exists_remove hscan
          have hkey := hconfined e hremoved
          have hset := h.map.setStoredAt hE room (i := i)
            (fun e' he' => Option.mem_unique he' he ▸ hkey) (some value)
          refine ⟨h.hashing_eq, hset.table, fun j hj => ?_⟩
          change (c.inner.own.getD (c.map.setStoredAt i (some value)).table.scan).current = some j at hj
          rw [scan_setStoredAt] at hj
          cases hscan.symm.trans hj
          exact EntryLayout.vacantAt_of_entryAt? (h.map.entryAt?_setStoredAt hE room he hkey (some value))

omit [EquivBEq κ] in
/-- A script that is confined to the key touches nothing else. -/
theorem UpToKey.runScript (h : m.UpToKey hashing t key place) {script : List (CursorAction ν)}
    (hscript : CursorInterface.Confined (fun e => (e.1 == key) = true) script m.openCursor) :
    (CursorInterface.runScript script m.openCursor).2.UpToKey hashing t key place :=
  hscript.runScript (R := Cursor.UpToKey hashing t key place) (fun _ h => ⟨h.hashing_eq, h.inner.next⟩)
    (fun _ h hconfined => (h.remove hE room hconfined).1)
    (fun value _ h hconfined => h.setValue hE room value hconfined)
    ⟨h.hashing_eq, Table.Cursor.upToKey_openCursor h.table⟩

omit [EquivBEq κ] in
/-- A script that ends with the removal of the key restores the table. -/
theorem UpToKey.restored_runScript (h : m.UpToKey hashing t key place) {script : List (CursorAction ν)}
    (hscript : CursorInterface.EndsWithRemoval (fun e => (e.1 == key) = true) script m.openCursor) :
    (CursorInterface.runScript script m.openCursor).2.map.Restored hashing t := by
  obtain ⟨before, rfl, hbefore, e, hremoved, hkey⟩ := hscript
  rw [CursorInterface.state_runScript_append]
  refine ((h.runScript hE room hbefore).remove hE room fun e' he' => ?_).2 (Option.isSome_of_mem hremoved)
  rw [Option.mem_unique he' hremoved, hkey]

/-! ### Operations -/

variable [BEq ν]

/-- **What concerns only the key leaves the map as it was but for the key.** -/
theorem UpToKey.perform (h : m.UpToKey hashing t key place) {op : Operation σ η κ ν}
    (hop : op.Concerns key m) : (op.perform m).state.UpToKey hashing t key place := by
  cases op with
  | get? | contains => exact Call.state_searching (fun _ => h) h
  | containsValue | len => exact h
  | copy => exact ⟨h.hashing_eq, h.table.congr rfl rfl rfl⟩
  | insert k value => exact h.store hE room hop (some value)
  | insertNull k => exact h.insertNull hE room hop
  | insertIfAbsent k value => exact h.insertIfAbsent hE room hop value
  | replace k value => exact Call.state_searching (fun _ => h) (h.replace hE room hop value)
  | replaceIf k old new => exact Call.state_searching (fun _ => h) (h.replaceIf hE room hop old new)
  | modify k f => exact Call.state_searching (fun _ => h) (h.modify hE room hop f)
  | insertAll other => exact Change.state_forEach h fun e he _ h => h.store hE room (hop e he) e.2
  | extend entries => exact Change.state_forEach h fun e he _ h => h.store hE room (hop e he) (some e.2)
  | erase k | eraseEntry k =>
      exact Call.state_searching (fun _ => h) (h.restored_eraseEntry hE room hop).upToKey
  | eraseIfValue k value => exact Call.state_searching (fun _ => h) (h.eraseIfValue hE room hop value)
  | eraseWhere selects => exact h.eraseWhere hE room hop
  | retain keeps =>
      exact h.eraseWhere hE room fun k stored hselected => hop k stored (Reply.rejects_of_map_not hselected)
  | forEach f =>
      have hstate : (m.forEach f).state = m := Call.state_forEach ..
      exact hstate.symm ▸ h
  -- these touch all slots
  | clear | compact => exact hop.elim
  | computeIfAbsent k f => exact h.computeIfAbsent hE room hop f
  | computeIfPresent k f => exact h.computeIfPresent hE room hop f
  | compute k f => exact h.compute hE room hop f
  | merge k value f => exact h.merge hE room hop value f
  | cursor script => exact (h.runScript hE room hop).map

omit [BEq ν] in
/-- Where the search for the key never ends, it is not there. -/
theorem UpToKey.restored_of_endless (h : m.UpToKey hashing t key place) (hkey : (k == key) = true)
    (hmem : .endless ∈ [m.locate k]) : m.Restored hashing t :=
  h.restored_of_find? hE room hkey (Table.find?_of_endless (List.mem_singleton.mp hmem).symm)

/-- **What removes the key leaves the map as it was.** -/
theorem UpToKey.restored (h : m.UpToKey hashing t key place) {op : Operation σ η κ ν}
    (hop : op.Removes key m) : (op.perform m).state.Restored hashing t := by
  cases op with
  -- a search that never ends leaves a full table, in which the key is not
  | erase k | eraseEntry k =>
      exact Call.state_searching (h.restored_of_endless hE room hop) (h.restored_eraseEntry hE room hop)
  | eraseIfValue k value =>
      exact Call.state_searching (h.restored_of_endless hE room hop.1)
        (h.restored_eraseIfValue hE room hop.1 hop.2)
  | computeIfPresent k f =>
      obtain ⟨hkey, old, hold, hf⟩ := hop
      exact h.restored_computeIfPresent hE room hkey hold hf
  | compute k f => exact h.restored_compute hE room hop.1 hop.2
  | merge k value f =>
      obtain ⟨hkey, old, hold, hf⟩ := hop
      exact h.restored_merge hE room hkey hold hf
  | cursor script => exact h.restored_runScript hE room hop
  | _ => exact hop.elim

end LinearProbing.ValueMap
