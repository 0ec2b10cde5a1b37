import LinearProbing.Proofs.Leftover.WordMap
import LinearProbing.Proofs.Restoring.Runs
import LinearProbing.Proofs.Restoring.Table

/-!
# LinearProbing.Proofs.Restoring.WordMap

**Putting a key into a word map and taking it out again restores the map.** Operations that concern only the
key leave the map as it was but for an entry under it (`UpToKey.perform`), and operations that remove the key
leave it as it was (`UpToKey.restored`).
-/

namespace LinearProbing.WordMap

variable {κ ν : Type} [SignedWord κ] [SignedWord ν]

/-- The operation reads the map, or it stores, changes or removes nothing but the entry under a key. -/
def Operation.Concerns (key : κ) (op : Operation κ ν) (m : WordMap κ ν) : Prop :=
  match op with
  | .get _ | .getD .. | .get? _ | .contains _ | .containsValue _ | .len | .forEach _ => True
  | .insert k _ | .insertIfAbsent k _ | .replace k _ | .replaceIf k .. | .erase k | .erase? k
  | .eraseIfValue k _ | .computeIfAbsent k _ | .computeIfPresent k _ | .compute k _ | .merge k .. => k = key
  | .insertAll other => ∀ e ∈ other.entries, e.1 = key
  | .eraseWhere selects => ∀ k value, selects k value = .answers true → k = key
  | .retain keeps => ∀ k value, keeps k value = .answers false → k = key
  | .clear | .compact => False
  | .cursor script => CursorInterface.Confined (fun e => e.1 = key) script m.openCursor

/-- The operation removes a key, whether by itself or because a function of the caller computes the missing
value. -/
def Operation.Removes (key : κ) (op : Operation κ ν) (m : WordMap κ ν) : Prop :=
  match op with
  | .erase k | .erase? k => k = key
  | .eraseIfValue k value => k = key ∧ m.get? key = some value
  | .computeIfPresent k f => k = key ∧ ∀ old, m.get? key = some old → f key old = .answers m.missing
  | .compute k f => k = key ∧ f key (m.get key) = .answers m.missing
  | .merge k value f =>
    k = key ∧ value ≠ m.missing ∧ ∃ old, m.get? key = some old ∧ f old value = .answers m.missing
  | .cursor script => CursorInterface.EndsWithRemoval (fun e => e.1 = key) script m.openCursor
  | _ => False

variable {missing : ν} {t : Table (κ × ν)} {m : WordMap κ ν} {key : κ} {value : ν} {place i : Nat}

/-! ### Reading -/

/-- A key that is found is read from its slot. -/
theorem get_of_find?_some (hfind : m.find? key = some i) : m.get key = m.valueAt i := by
  rw [get, getD, get?, hfind]
  rfl

/-- The missing value is read under a key that is not found. -/
theorem get_of_find?_none (hfind : m.find? key = none) : m.get key = m.missing := by
  rw [get, getD, get?, hfind]
  rfl

/-- An absent key is not found. -/
theorem find?_of_contains (h : m.contains key = false) : m.find? key = none := by
  rw [contains, get?, Option.isSome_map] at h
  exact Option.isNone_iff_eq_none.mp (Option.isSome_eq_false_iff.mp h)

/-- No entry has the missing value. -/
theorem valueAt_ne_missing (hfind : m.find? key = some i) : m.valueAt i ≠ m.missing := by
  obtain ⟨e, he, -⟩ := Table.exists_entryAt?_of_find? hfind BEq.rfl
  obtain ⟨hslot, hne⟩ := slotAt_of_entryAt? he
  rwa [← hslot] at hne

/-! ### Up to a key -/

/-- The key is absent from a table, and there is room for it. -/
abbrev RoomFor (missing : ν) (t : Table (κ × ν)) (key : κ) (place : Nat) : Prop :=
  t.RoomFor (inlineLayout missing) SignedWord.spread (fun _ value => value ≠ missing) key place

/-- The table of a map is `t`, or `t` with an entry under the key, but for what is left in vacant slots. -/
structure UpToKey (missing : ν) (t : Table (κ × ν)) (key : κ) (place : Nat) (m : WordMap κ ν) : Prop where
  missing_eq : m.missing = missing
  table : t.UpToKey (inlineLayout missing) SignedWord.spread (fun _ value => value ≠ missing) key place
    m.table

/-- The table of a map is `t`, but for what is left in vacant slots. -/
abbrev Restored (missing : ν) (t : Table (κ × ν)) (m : WordMap κ ν) : Prop :=
  m.missing = missing ∧ t.Like (inlineLayout missing) False m.table

theorem Restored.upToKey (h : Restored missing t m) : m.UpToKey missing t key place := ⟨h.1, .absent h.2⟩

variable (room : RoomFor missing t key place)
include room

/-! ### Slots -/

/-- Where the key is not found, the map is as it was. -/
theorem UpToKey.restored_of_find? (h : m.UpToKey missing t key place) (hfind : m.find? key = none) :
    m.Restored missing t := by
  obtain ⟨_, u⟩ := m
  obtain ⟨rfl, h⟩ := h
  exact ⟨rfl, h.like_of_find? (inlineLayout_lawful _) room BEq.rfl hfind⟩

/-- **Removing the key restores the table**: the gap is closed as if the entry had never been there. -/
theorem UpToKey.restored_eraseAt (h : m.UpToKey missing t key place) (hfind : m.find? key = some i) :
    (m.eraseAt i).Restored missing t := by
  obtain ⟨_, u⟩ := m
  obtain ⟨rfl, h⟩ := h
  obtain ⟨e, he, hkey⟩ := Table.exists_entryAt?_of_find? hfind BEq.rfl
  exact ⟨rfl, h.eraseAt (inlineLayout_lawful _) room he hkey⟩

/-- Writing another value under the key leaves the other entries where they are. -/
theorem UpToKey.setValueAt (h : m.UpToKey missing t key place) (hfind : m.find? key = some i)
    (hvalue : value ≠ missing) : (m.setValueAt i value).UpToKey missing t key place := by
  obtain ⟨_, u⟩ := m
  obtain ⟨rfl, h⟩ := h
  obtain ⟨e, he, hkey⟩ := Table.exists_entryAt?_of_find? hfind BEq.rfl
  have hset := h.setAt room he hkey hkey hvalue
  refine ⟨rfl, ?_⟩
  rwa [← (slotAt_of_entryAt? he).1] at hset

/-- The key is inserted where its place is kept. -/
theorem UpToKey.insertAt (h : m.UpToKey missing t key place) (hlocate : m.locate key = .vacant i)
    (hvalue : value ≠ missing) : (m.insertAt i key value).state.UpToKey missing t key place := by
  obtain ⟨_, u⟩ := m
  obtain ⟨rfl, h⟩ := h
  exact ⟨rfl, h.insertAt (inlineLayout_lawful _) room BEq.rfl hvalue hlocate⟩

/-- An update writes the value, or restores the table if that is the missing one. -/
theorem UpToKey.updateAt (h : m.UpToKey missing t key place) (hfind : m.find? key = some i) (value : ν) :
    (m.updateAt i value).UpToKey missing t key place := by
  rw [WordMap.updateAt, h.missing_eq]
  split
  · exact (h.restored_eraseAt room hfind).upToKey
  · next hvalue => exact h.setValueAt room hfind hvalue

/-- A computed value is inserted, or nothing happens. -/
theorem UpToKey.insertComputed (h : m.UpToKey missing t key place) (hlocate : m.locate key = .vacant i)
    (value : ν) : (m.insertComputed i key value).state.UpToKey missing t key place := by
  rw [WordMap.insertComputed, h.missing_eq]
  split
  · exact h
  · next hvalue => exact h.insertAt room hlocate hvalue

/-! ### Storing -/

omit room in
/-- A value that is refused changes nothing. -/
theorem UpToKey.checked {α : Type} {c : Change (WordMap κ ν) α} (h : m.UpToKey missing t key place)
    (hnext : value ≠ missing → c.state.UpToKey missing t key place) :
    (m.checked value c).state.UpToKey missing t key place := by
  rw [WordMap.checked, h.missing_eq]
  split
  · exact h
  · next hvalue => exact hnext hvalue

/-- Storing under the key leaves the other entries where they are. -/
theorem UpToKey.store (h : m.UpToKey missing t key place) (hvalue : value ≠ missing) :
    (m.store key value).state.UpToKey missing t key place := by
  rw [WordMap.store]
  cases hlocate : m.locate key with
  | endless => exact h
  | found i => exact h.setValueAt room (Table.find?_of_found hlocate) hvalue
  | vacant i => exact h.insertAt room hlocate hvalue

theorem UpToKey.insertIfAbsent (h : m.UpToKey missing t key place) (value : ν) :
    (m.insertIfAbsent key value).state.UpToKey missing t key place := by
  refine h.checked fun hvalue => ?_
  cases hlocate : m.locate key with
  | endless => exact h
  | found i => exact h
  | vacant i => exact h.insertAt room hlocate hvalue

theorem UpToKey.replace (h : m.UpToKey missing t key place) (value : ν) :
    (m.replace key value).state.UpToKey missing t key place := by
  refine h.checked fun hvalue => ?_
  cases hlocate : m.locate key with
  | vacant | endless => exact h
  | found i => exact h.setValueAt room (Table.find?_of_found hlocate) hvalue

theorem UpToKey.replaceIf (h : m.UpToKey missing t key place) (old new : ν) :
    (m.replaceIf key old new).state.UpToKey missing t key place := by
  refine h.checked fun hvalue => ?_
  cases hlocate : m.locate key with
  | vacant | endless => exact h
  | found i =>
      dsimp only
      split
      · exact h.setValueAt room (Table.find?_of_found hlocate) hvalue
      · exact h

/-- Copying entries all of which are under the key stores one after the other. -/
theorem UpToKey.insertAll (h : m.UpToKey missing t key place) {other : WordMap κ ν}
    (hother : ∀ e ∈ other.entries, e.1 = key) :
    (m.insertAll other).state.UpToKey missing t key place := by
  rw [WordMap.insertAll, h.missing_eq]
  split
  · exact h
  · next hstorable =>
    refine Change.state_forEach h fun e he m h => ?_
    obtain rfl := hother e he
    refine h.store room fun hvalue => ?_
    -- the entries are checked as a whole, against this map's missing value
    by_cases hsame : other.missing = missing
    · exact ne_missing_of_mem_entries he (hvalue.trans hsame.symm)
    · exact hstorable ⟨hsame, by simpa [values] using ⟨e.1, hvalue ▸ he⟩⟩

/-! ### Removing -/

/-- Whether the key was there or not, after its removal the table is what it was. -/
theorem UpToKey.restored_erase? (h : m.UpToKey missing t key place) :
    (m.erase? key).2.Restored missing t := by
  rw [WordMap.erase?]
  cases hfind : m.find? key with
  | none => exact h.restored_of_find? room hfind
  | some i => exact h.restored_eraseAt room hfind

theorem UpToKey.eraseIfValue (h : m.UpToKey missing t key place) (value : ν) :
    (m.eraseIfValue key value).2.UpToKey missing t key place := by
  rw [WordMap.eraseIfValue]
  cases hfind : m.find? key with
  | none => exact h
  | some i =>
      dsimp only
      split
      · exact (h.restored_eraseAt room hfind).upToKey
      · exact h

theorem UpToKey.restored_eraseIfValue (h : m.UpToKey missing t key place) (hvalue : m.get? key = some value) :
    (m.eraseIfValue key value).2.Restored missing t := by
  obtain ⟨i, hfind, hvalue⟩ := Option.map_eq_some_iff.mp hvalue
  rw [WordMap.eraseIfValue, hfind]
  dsimp only
  rw [if_pos hvalue]
  exact h.restored_eraseAt room hfind

/-- A sweep that selects no other key removes at most this one. -/
theorem UpToKey.eraseWhere (h : m.UpToKey missing t key place) {selects : κ → ν → Reply Bool}
    (hselects : ∀ k value, selects k value = .answers true → k = key) :
    (m.eraseWhere selects).state.UpToKey missing t key place := by
  obtain ⟨_, u⟩ := m
  obtain ⟨rfl, h⟩ := h
  have hselects : ∀ k value, selects k value = .answers true → (k == key) = true :=
    fun k value h => beq_iff_eq.mpr (hselects k value h)
  exact ⟨rfl, h.sweep (inlineLayout_lawful _) room hselects _ _ _⟩

/-! ### Computing -/

theorem UpToKey.computeIfAbsent (h : m.UpToKey missing t key place) (f : κ → Reply ν) :
    (m.computeIfAbsent key f).state.UpToKey missing t key place := by
  rw [WordMap.computeIfAbsent]
  cases hlocate : m.locate key with
  | endless => exact h
  | found i => exact h
  | vacant i => exact Call.state_run h (h.insertComputed room hlocate)

theorem UpToKey.computeIfPresent (h : m.UpToKey missing t key place) (f : κ → ν → Reply ν) :
    (m.computeIfPresent key f).state.UpToKey missing t key place := by
  rw [WordMap.computeIfPresent]
  cases hlocate : m.locate key with
  | vacant | endless => exact h
  | found i => exact Call.state_run h (h.updateAt room (Table.find?_of_found hlocate))

/-- A computation for the key leaves the other entries where they are, whatever it makes. -/
theorem UpToKey.compute (h : m.UpToKey missing t key place) (f : κ → ν → Reply ν) :
    (m.compute key f).state.UpToKey missing t key place := by
  rw [WordMap.compute]
  cases hlocate : m.locate key with
  | endless => exact h
  | found i => exact Call.state_run h (h.updateAt room (Table.find?_of_found hlocate))
  | vacant i => exact Call.state_run h (h.insertComputed room hlocate)

/-- A merge under the key leaves the other entries where they are. -/
theorem UpToKey.merge (h : m.UpToKey missing t key place) (value : ν) (f : ν → ν → Reply ν) :
    (m.merge key value f).state.UpToKey missing t key place := by
  rw [WordMap.merge, h.missing_eq]
  split
  · exact h
  · next hvalue =>
    cases hlocate : m.locate key with
    | endless => exact h
    | found i => exact Call.state_run h (h.updateAt room (Table.find?_of_found hlocate))
    | vacant i => exact h.insertAt room hlocate hvalue

/-- Computing the missing value from an entry removes it. -/
theorem UpToKey.restored_updateAt (h : m.UpToKey missing t key place) (hfind : m.find? key = some i) :
    (m.updateAt i m.missing).Restored missing t := by
  rw [WordMap.updateAt, if_pos rfl]
  exact h.restored_eraseAt room hfind

/-- A function that computes the missing value from the former one restores the table. -/
theorem UpToKey.restored_computeIfPresent (h : m.UpToKey missing t key place) {f : κ → ν → Reply ν}
    (hf : ∀ old, m.get? key = some old → f key old = .answers m.missing) :
    (m.computeIfPresent key f).state.Restored missing t := by
  rw [WordMap.computeIfPresent]
  cases hlocate : m.locate key with
  | vacant i => exact h.restored_of_find? room (Table.find?_of_vacant hlocate)
  | endless => exact h.restored_of_find? room (Table.find?_of_endless hlocate)
  | found i =>
      have hfind : m.find? key = some i := Table.find?_of_found hlocate
      have hreply := hf (m.valueAt i) (by rw [get?, hfind]; rfl)
      dsimp only
      rw [hreply]
      exact h.restored_updateAt room hfind

/-- A function that computes the missing value restores the table, whether the key was there or not. -/
theorem UpToKey.restored_compute (h : m.UpToKey missing t key place) {f : κ → ν → Reply ν}
    (hf : f key (m.get key) = .answers m.missing) : (m.compute key f).state.Restored missing t := by
  rw [WordMap.compute]
  cases hlocate : m.locate key with
  | endless => exact h.restored_of_find? room (Table.find?_of_endless hlocate)
  | found i =>
      have hfind := Table.find?_of_found hlocate
      dsimp only
      rw [← get_of_find?_some hfind, hf]
      exact h.restored_updateAt room hfind
  | vacant i =>
      have hfind := Table.find?_of_vacant hlocate
      have hget : m.get key = m.missing := get_of_find?_none hfind
      dsimp only
      rw [← hget, hf, hget]
      -- the function made nothing of nothing, so nothing is inserted
      show (m.insertComputed i key m.missing).state.Restored missing t
      rw [WordMap.insertComputed, if_pos rfl]
      exact h.restored_of_find? room hfind

omit room in
/-- What is computed for the absent key is its value then. -/
theorem get_compute_of_roomFor {f : κ → ν → Reply ν} (room : RoomFor m.missing m.table key place)
    (hf : f key m.missing = .answers value) : (m.compute key f).state.get key = value := by
  have hlocate : m.locate key = .vacant place := room.located
  rw [WordMap.compute, hlocate]
  dsimp only
  rw [hf]
  show (m.insertComputed place key value).state.get key = value
  rw [WordMap.insertComputed]
  -- the missing value is not stored; any other one goes into the place of the key
  split
  · next hmissing =>
    rw [hmissing]
    exact get_of_find?_none (Table.find?_of_vacant hlocate)
  · next hne =>
    have hstate : (m.insertAt place key value).state =
        { m with table := m.table.withEntry place (m.layout.occupy (SignedWord.spread key) key value) } :=
      congrArg (WordMap.mk m.missing) (Table.HasRoom.state_insertAt (room.room BEq.rfl hne) _)
    have hfound := room.locate_withEntry (inlineLayout_lawful _) BEq.rfl hne
    rw [Change.map, hstate, get_of_find?_some (Table.find?_of_found hfound)]
    have hplace := (Table.vacantAt_of_locate_vacant room.located).1
    exact congrArg Prod.snd (Layout.slotAt_setIfInBounds_self hplace)

/-- A merge that makes the missing value restores the table. -/
theorem UpToKey.restored_merge (h : m.UpToKey missing t key place) {f : ν → ν → Reply ν} {old : ν}
    (hvalue : value ≠ m.missing) (hold : m.get? key = some old) (hf : f old value = .answers m.missing) :
    (m.merge key value f).state.Restored missing t := by
  obtain ⟨i, hfind, rfl⟩ := Option.map_eq_some_iff.mp hold
  have hlocate : m.locate key = .found i := Table.locate_of_find? hfind
  rw [WordMap.merge, if_neg hvalue, hlocate]
  dsimp only
  rw [hf]
  exact h.restored_updateAt room hfind

/-! ### Cursors -/

omit room in
/-- A cursor over such a map. -/
structure Cursor.UpToKey (missing : ν) (t : Table (κ × ν)) (key : κ) (place : Nat) (c : Cursor κ ν) :
    Prop where
  missing_eq : c.missing = missing
  inner : Table.Cursor.UpToKey (inlineLayout missing) SignedWord.spread (fun _ value => value ≠ missing) t key
    place c.inner

/-- A cursor that removes no other key restores the table with its removal. -/
theorem Cursor.UpToKey.remove {c : Cursor κ ν} (h : c.UpToKey missing t key place)
    (hconfined : ∀ e ∈ c.remove.1, e.1 = key) : c.remove.2.UpToKey missing t key place ∧
      (c.remove.1.isSome → c.remove.2.map.Restored missing t) := by
  obtain ⟨_, c⟩ := c
  obtain ⟨rfl, h⟩ := h
  obtain ⟨hremoved, hrestored⟩ :=
    h.remove (inlineLayout_lawful _) room fun e he => beq_iff_eq.mpr (hconfined e he)
  exact ⟨⟨rfl, hremoved⟩, fun hsome => ⟨rfl, hrestored hsome⟩⟩

/-- A cursor that is at no other key writes only under this one. -/
theorem Cursor.UpToKey.setValue {c : Cursor κ ν} (h : c.UpToKey missing t key place) (value : ν)
    (hconfined : ∀ e ∈ c.remove.1, e.1 = key) : (c.setValue value).2.UpToKey missing t key place := by
  obtain ⟨_, c⟩ := c
  obtain ⟨rfl, h⟩ := h
  unfold Cursor.setValue
  split
  · exact ⟨rfl, h⟩
  · next hvalue =>
    have hcurrent := (h.like.writeCurrent (layout_lawful _) (fun s => (s.1, value))
      fun _ _ => vacant_of_ne hvalue).2.current
    refine ⟨rfl, ?_, hcurrent⟩
    unfold Table.Cursor.writeCurrent
    cases hscan : c.scan.current with
    | none => exact h.table
    | some i =>
        -- the entry that the cursor is at is the one that it would remove, so its key is this one
        obtain ⟨e, he, hremoved⟩ := h.exists_remove hscan
        have hkey : (e.1 == key) = true := beq_iff_eq.mpr (hconfined e hremoved)
        have hset := h.table.setAt room he hkey hkey hvalue
        rwa [← (slotAt_of_entryAt? he).1] at hset

/-- A script that is confined to the key touches nothing else. -/
theorem UpToKey.runScript (h : m.UpToKey missing t key place) {script : List (CursorAction ν)}
    (hscript : CursorInterface.Confined (fun e => e.1 = key) script m.openCursor) :
    (CursorInterface.runScript script m.openCursor).2.UpToKey missing t key place := by
  refine hscript.runScript (R := Cursor.UpToKey missing t key place) (fun c h => ?_)
    (fun c h hconfined => (h.remove room hconfined).1)
    (fun value c h hconfined => h.setValue room value hconfined) ?_
  · obtain ⟨_, c⟩ := c
    obtain ⟨rfl, h⟩ := h
    exact ⟨rfl, h.next⟩
  · obtain ⟨_, u⟩ := m
    obtain ⟨rfl, h⟩ := h
    exact ⟨rfl, Table.Cursor.upToKey_openCursor h⟩

/-- A script that ends with the removal of the key restores the table. -/
theorem UpToKey.restored_runScript (h : m.UpToKey missing t key place) {script : List (CursorAction ν)}
    (hscript : CursorInterface.EndsWithRemoval (fun e => e.1 = key) script m.openCursor) :
    (CursorInterface.runScript script m.openCursor).2.map.Restored missing t := by
  obtain ⟨before, rfl, hbefore, e, hremoved, hkey⟩ := hscript
  rw [CursorInterface.state_runScript_append]
  refine ((h.runScript room hbefore).remove room fun e' he' => ?_).2 (Option.isSome_of_mem hremoved)
  rw [Option.mem_unique he' hremoved, hkey]

/-! ### Operations -/

/-- **What concerns only the key leaves the map as it was but for the key.** -/
theorem UpToKey.perform (h : m.UpToKey missing t key place) {op : Operation κ ν} (hop : op.Concerns key m) :
    (op.perform m).state.UpToKey missing t key place := by
  cases op with
  | get | getD | get? | contains => exact Call.state_searching (fun _ => h) h
  | containsValue | len => exact h
  -- operations that concern one key concern this one
  | insert k value => exact hop ▸ h.checked (h.store room)
  | insertIfAbsent k value => exact hop ▸ h.insertIfAbsent room value
  | replace k value => exact hop ▸ h.replace room value
  | replaceIf k old new => exact hop ▸ h.replaceIf room old new
  | insertAll other => exact h.insertAll room hop
  | erase k | erase? k =>
      obtain rfl : k = key := hop
      exact Call.state_searching (fun _ => h) (h.restored_erase? room).upToKey
  | eraseIfValue k value =>
      obtain rfl : k = key := hop
      exact Call.state_searching (fun _ => h) (h.eraseIfValue room value)
  -- sweeps concern this key if they select no other
  | eraseWhere selects => exact h.eraseWhere room hop
  | retain keeps =>
      exact h.eraseWhere room fun k value hselected => hop k value (Reply.rejects_of_map_not hselected)
  | forEach f =>
      have hstate : (m.forEach f).state = m := Call.state_forEach ..
      exact hstate.symm ▸ h
  -- these touch all slots
  | clear | compact => exact hop.elim
  | computeIfAbsent k f => exact hop ▸ h.computeIfAbsent room f
  | computeIfPresent k f => exact hop ▸ h.computeIfPresent room f
  | compute k f => exact hop ▸ h.compute room f
  | merge k value f => exact hop ▸ h.merge room value f
  | cursor script =>
      have hleft := h.runScript room hop
      exact ⟨hleft.missing_eq, hleft.inner.table⟩

/-- Where the search for the key never ends, it is not there. -/
theorem UpToKey.restored_of_endless (h : m.UpToKey missing t key place) (hmem : .endless ∈ [m.locate key]) :
    m.Restored missing t :=
  h.restored_of_find? room (Table.find?_of_endless (List.mem_singleton.mp hmem).symm)

/-- **What removes the key leaves the map as it was.** -/
theorem UpToKey.restored (h : m.UpToKey missing t key place) {op : Operation κ ν} (hop : op.Removes key m) :
    (op.perform m).state.Restored missing t := by
  cases op with
  -- a search that never ends leaves a full table, in which the key is not
  | erase k | erase? k =>
      obtain rfl : k = key := hop
      exact Call.state_searching (h.restored_of_endless room) (h.restored_erase? room)
  | eraseIfValue k value =>
      obtain ⟨rfl, hvalue⟩ := hop
      exact Call.state_searching (h.restored_of_endless room) (h.restored_eraseIfValue room hvalue)
  | computeIfPresent k f => exact hop.1 ▸ h.restored_computeIfPresent room hop.2
  | compute k f => exact hop.1 ▸ h.restored_compute room hop.2
  | merge k value f =>
      obtain ⟨rfl, hvalue, old, hold, hf⟩ := hop
      exact h.restored_merge room hvalue hold hf
  | cursor script => exact h.restored_runScript room hop
  | _ => exact hop.elim

end LinearProbing.WordMap
