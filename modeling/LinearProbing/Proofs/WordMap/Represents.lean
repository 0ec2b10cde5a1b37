import LinearProbing.Proofs.WordMap.Operation

/-!
# LinearProbing.Proofs.WordMap.Represents

**Maps of words are finite maps.** `WordMap.Represents` relates a map to the finite map of its entries.
Every operation keeps the relation and gives what its specification gives (`Represents.perform`); the only
exception is an insertion that cannot grow the table.
-/

namespace LinearProbing

/-- Slots of a map of words: every value but the missing one can be stored. -/
theorem inlineLayout_lawful {κ ν : Type} [SignedWord κ] [SignedWord ν] (missing : ν) :
    (inlineLayout (κ := κ) missing).Lawful SignedWord.spread fun _ v => v ≠ missing where
  entryIn?_empty := if_pos rfl
  entryIn?_leave _ := if_pos rfl
  entryIn?_occupy _ _ h := if_neg h
  hash_occupy _ _ _ := rfl
  hash_congr _ _ h := congrArg SignedWord.spread (eq_of_beq h)

namespace WordMap

variable {κ ν : Type} [SignedWord κ] [SignedWord ν]
variable {missing : ν} {within : Prop} {m : WordMap κ ν} {M : FiniteMap κ ν}
variable {i : Nat} {key k : κ} {value v : ν} {rest : List (κ × ν)}

/-- A usable map with the entries of a finite map. -/
structure Represents (missing : ν) (within : Prop) (m : WordMap κ ν) (M : FiniteMap κ ν) : Prop where
  missing_eq : m.missing = missing
  table : m.table.Represents (inlineLayout missing) SignedWord.spread within M.entries

/-- A map whose table holds too many entries. -/
structure Overfull (missing : ν) (within : Prop) (m : WordMap κ ν) : Prop where
  missing_eq : m.missing = missing
  table : m.table.Overfull (inlineLayout missing) SignedWord.spread within

/-! ### Construction -/

/-- A new map stands for the empty one. -/
theorem represents_ofSizing {sizing : Sizing} (hs : sizing.Valid) (mode : IterationMode) :
    (ofSizing sizing mode missing : WordMap κ ν).Represents missing within {} :=
  ⟨rfl, Table.represents_ofSizing (inlineLayout_lawful missing) hs mode⟩

/-- A new map is empty. -/
theorem represents_of_ofConfig {config : TableConfig} (h : ofConfig config missing = .ok m) :
    m.Represents missing within {} := by
  obtain ⟨sizing, hsizing, rfl⟩ := exists_of_map_eq_ok h
  exact represents_ofSizing (Sizing.valid_of_ofConfig hsizing) config.mode

theorem ofConfig_default (missing : ν) : ofConfig {} missing = .ok (empty missing : WordMap κ ν) := by
  rw [ofConfig, Sizing.ofConfig_default]
  rfl

theorem Represents.entries_perm (h : m.Represents missing within M) : m.entries.Perm M.entries := by
  obtain rfl := h.missing_eq
  exact h.table.entries

/-! ### Slots -/

/-- A slot is its own entry, if it does not hold the missing value. -/
theorem entryIn?_inlineLayout {s e : κ × ν} (h : (inlineLayout missing).entryIn? s = some e) :
    s = e ∧ e.2 ≠ missing := by
  unfold inlineLayout at h
  dsimp only at h
  split at h
  · exact absurd h (by simp)
  · next hne =>
    obtain rfl := Option.some.inj h
    exact ⟨rfl, hne⟩

theorem slotAt_of_entryAt? {t : Table (κ × ν)} {e : κ × ν}
    (h : t.entryAt? (inlineLayout missing) i = some e) :
    (inlineLayout missing).layout.slotAt t.slots i = e ∧ e.2 ≠ missing :=
  entryIn?_inlineLayout h

/-- The value in the slot of an entry is the value of the entry. -/
theorem Represents.valueAt (h : m.Represents missing within M)
    (he : m.table.entryAt? (inlineLayout missing) i = some (k, v)) : m.valueAt i = v := by
  obtain rfl := h.missing_eq
  exact congrArg Prod.snd (slotAt_of_entryAt? he).1

/-- A search ends at the entry of the key or, where there is none, at a vacant slot. -/
theorem Represents.sought (h : m.Represents missing within M) (key : κ) :
    Table.Sought (inlineLayout missing) SignedWord.spread m.table M.entries key (m.locate key) := by
  obtain rfl := h.missing_eq
  exact h.table.sought (inlineLayout_lawful _) key

/-- Every search ends. -/
theorem Represents.endless_notMem (h : m.Represents missing within M) (key : κ) :
    Probe.endless ∉ [m.locate key] := by
  have hsought := h.sought key
  intro hmem
  rw [← List.mem_singleton.mp hmem] at hsought
  cases hsought

/-- A key is found with its entry, or it is absent. -/
theorem Represents.find?_cases (h : m.Represents missing within M) (key : κ) :
    (∃ i v rest, m.find? key = some i ∧
        m.table.entryAt? (inlineLayout missing) i = some (key, v) ∧ M.Present key key v rest) ∨
      (m.find? key = none ∧ M.Absent key) := by
  have hsought := h.sought key
  generalize hlocate : m.locate key = outcome at hsought
  cases hsought with
  | @found i k v rest entry present =>
      obtain rfl := eq_of_beq present.same
      exact Or.inl ⟨i, v, rest, Table.find?_of_found hlocate, entry, present⟩
  | vacant _ absent => exact Or.inr ⟨Table.find?_of_vacant hlocate, absent⟩

theorem Represents.get?_eq (h : m.Represents missing within M) (key : κ) : m.get? key = M.get? key := by
  rw [WordMap.get?]
  obtain ⟨i, v, rest, hfind, hentry, hpresent⟩ | ⟨hfind, habsent⟩ := h.find?_cases key
  · rw [hfind, hpresent.get?, Option.map_some, h.valueAt hentry]
  · rw [hfind, habsent.get?, Option.map_none]

/-! ### Changing one slot -/

/-- A value written into the slot of an entry is an insertion under its key. -/
theorem Represents.setValueAt (h : m.Represents missing within M)
    (he : m.table.entryAt? (inlineLayout missing) i = some (k, v)) (hp : M.Present key k v rest)
    (hv : value ≠ missing) : (m.setValueAt i value).Represents missing within (M.insert key value) := by
  have hset := h.table.setAt (inlineLayout_lawful missing) he hp.split BEq.rfl hv
  obtain rfl := h.missing_eq
  refine ⟨rfl, ?_⟩
  rw [WordMap.setValueAt, (slotAt_of_entryAt? he).1]
  exact hset.perm (hp.insert value).symm

/-- Removing the slot of an entry is the removal of its key. -/
theorem Represents.eraseAt (h : m.Represents missing within M)
    (he : m.table.entryAt? (inlineLayout missing) i = some (k, v)) (hp : M.Present key k v rest) :
    (m.eraseAt i).Represents missing within (M.erase key) := by
  have herase := h.table.eraseAt (inlineLayout_lawful missing) he hp.split
  obtain rfl := h.missing_eq
  exact ⟨rfl, herase.perm hp.erase.symm⟩

/-- An update of the slot of an entry stores its new value, or removes the entry if that is the missing one. -/
theorem Represents.updateAt (h : m.Represents missing within M)
    (he : m.table.entryAt? (inlineLayout missing) i = some (k, v)) (hp : M.Present key k v rest)
    (value : ν) : (m.updateAt i value).Represents missing within (Spec.update missing M key value) := by
  rw [WordMap.updateAt, Spec.update, h.missing_eq]
  by_cases hv : value = missing
  · rw [if_pos hv, if_pos hv]
    exact h.eraseAt he hp
  · rw [if_neg hv, if_neg hv]
    exact h.setValueAt he hp hv

/-- An absent key is put into the vacant slot at which its search ended. -/
theorem Represents.insertAt (h : m.Represents missing within M)
    (hloc : (inlineLayout missing).Located SignedWord.spread m.table.slots key (.vacant i))
    (ha : M.Absent key) (hv : value ≠ missing) {α : Type} (result : α) :
    ((m.insertAt i key value).map fun _ => result).Tracks (Represents missing within)
      (Overfull missing within) (.done (M.insert key value) result) := by
  have hinsert := h.table.insertAt (inlineLayout_lawful missing) hloc hv
  obtain rfl := h.missing_eq
  rcases hinsert with ⟨j, hresult, -, hstate⟩ | ⟨hresult, hstate⟩
  · refine Or.inl (.of_ok (congrArg (Except.map fun _ => result) hresult) rfl ⟨rfl, ?_⟩)
    show Table.Represents _ _ _ _ (M.insert key value).entries
    rw [ha.insert]
    exact hstate
  · exact Or.inr ⟨congrArg (Except.map fun _ => result) hresult, rfl, hstate⟩

/-- A computed value is inserted under an absent key, unless it is the missing one. -/
theorem Represents.insertComputed (h : m.Represents missing within M)
    (hloc : (inlineLayout missing).Located SignedWord.spread m.table.slots key (.vacant i))
    (ha : M.Absent key) (value : ν) :
    (m.insertComputed i key value).Tracks (Represents missing within) (Overfull missing within)
      (.done (Spec.update missing M key value) value) := by
  rw [WordMap.insertComputed, Spec.update, h.missing_eq]
  by_cases hv : value = missing
  · rw [if_pos hv, if_pos hv, ha.erase]
    exact .done h value
  · rw [if_neg hv, if_neg hv]
    exact h.insertAt hloc ha hv value

/-! ### Storing -/

/-- A change of a map does what is specified of it. -/
abbrev Changes (missing : ν) (within : Prop) {α : Type} (c : Change (WordMap κ ν) α)
    (d : Change (FiniteMap κ ν) α) : Prop :=
  c.Tracks (Represents missing within) (Overfull missing within) d

/-- A call on a map does what is specified of it. -/
abbrev Calls (missing : ν) (within : Prop) {γ α : Type} (c : Call (WordMap κ ν) γ α)
    (d : Call (FiniteMap κ ν) γ α) : Prop :=
  c.Tracks (Represents missing within) (Overfull missing within) d

theorem Represents.store (h : m.Represents missing within M) (hv : value ≠ missing) :
    Changes missing within (m.store key value)
      (.done (M.insert key value) (Spec.read missing M key)) := by
  have hsought := h.sought key
  rw [WordMap.store]
  generalize m.locate key = outcome at hsought
  cases hsought with
  | found entry present =>
      obtain rfl := eq_of_beq present.same
      dsimp only
      rw [h.valueAt entry, Spec.read, present.get?]
      exact .done (h.setValueAt entry present hv) _
  | vacant located absent =>
      dsimp only
      rw [Spec.read, absent.get?, h.missing_eq]
      exact h.insertAt located absent hv missing

/-- The missing value is refused. -/
theorem Represents.checked (h : m.Represents missing within M) {α : Type}
    {next : Change (WordMap κ ν) α} {d : Change (FiniteMap κ ν) α}
    (hnext : value ≠ missing → Changes missing within next d) :
    Changes missing within (m.checked value next) (Spec.checked missing M value d) := by
  rw [Changes, WordMap.checked, Spec.checked, h.missing_eq]
  by_cases hv : value = missing
  · rw [if_pos hv, if_pos hv, refusal, h.missing_eq]
    exact .refused h _
  · rw [if_neg hv, if_neg hv]
    exact hnext hv

theorem Represents.insert (h : m.Represents missing within M) :
    Changes missing within (m.insert key value) (Spec.insert missing M key value) :=
  h.checked h.store

theorem Represents.insertIfAbsent (h : m.Represents missing within M) :
    Changes missing within (m.insertIfAbsent key value) (Spec.insertIfAbsent missing M key value) := by
  refine h.checked fun hv => ?_
  have hsought := h.sought key
  generalize m.locate key = outcome at hsought
  cases hsought with
  | found entry present =>
      dsimp only
      rw [h.valueAt entry, present.get?]
      exact .done h _
  | vacant located absent =>
      dsimp only
      rw [absent.get?, h.missing_eq]
      exact h.insertAt located absent hv missing

theorem Represents.replace (h : m.Represents missing within M) :
    Changes missing within (m.replace key value) (Spec.replace missing M key value) := by
  refine h.checked fun hv => ?_
  have hsought := h.sought key
  generalize m.locate key = outcome at hsought
  cases hsought with
  | found entry present =>
      obtain rfl := eq_of_beq present.same
      dsimp only
      rw [h.valueAt entry, present.get?]
      exact .done (h.setValueAt entry present hv) _
  | vacant _ absent =>
      dsimp only
      rw [absent.get?, h.missing_eq]
      exact .done h _

theorem Represents.replaceIf {old new : ν} (h : m.Represents missing within M) :
    Changes missing within (m.replaceIf key old new) (Spec.replaceIf missing M key old new) := by
  refine h.checked fun hv => ?_
  have hsought := h.sought key
  generalize m.locate key = outcome at hsought
  cases hsought with
  | @found _ _ v _ entry present =>
      obtain rfl := eq_of_beq present.same
      simp only [h.valueAt entry, present.get?, Option.some.injEq]
      by_cases hold : v = old
      · rw [if_pos hold, if_pos hold]
        exact .done (h.setValueAt entry present hv) _
      · rw [if_neg hold, if_neg hold]
        exact .done h _
  | vacant _ absent =>
      dsimp only
      rw [absent.get?]
      exact .done h _

/-- No value in a map is the missing one. -/
theorem missing_notMem_values : m.missing ∉ m.values := by
  intro hmem
  obtain ⟨e, he, hvalue⟩ := List.mem_map.mp hmem
  obtain ⟨s, -, hs⟩ := List.mem_filterMap.mp he
  exact (entryIn?_inlineLayout hs).2 hvalue

/-- A value is held if it is the value of an entry. -/
theorem Represents.containsValue_eq (h : m.Represents missing within M) (value : ν) :
    m.containsValue value = (M.entries.map Prod.snd).contains value := by
  have hperm : m.values.Perm (M.entries.map Prod.snd) := by
    obtain rfl := h.missing_eq
    exact h.table.entries.map Prod.snd
  rw [Bool.eq_iff_iff, WordMap.containsValue, Bool.and_eq_true, decide_eq_true_iff,
    List.contains_iff_mem, List.contains_iff_mem, hperm.mem_iff]
  refine and_iff_right_of_imp fun hmem => ?_
  rintro rfl
  exact missing_notMem_values (hperm.mem_iff.mpr hmem)

/-- Entries of which none has the missing value are stored one after the other. -/
theorem Represents.storeAll {l : List (κ × ν)} (h : m.Represents missing within M)
    (hl : missing ∉ l.map Prod.snd) :
    Changes missing within (Change.forEach (fun m e => m.store e.1 e.2) l m)
      (.done (l.foldl (fun m e => m.insert e.1 e.2) M) ()) := by
  rw [Changes, ← Change.forEach_done]
  refine Change.Tracks.forEach h fun e he {_ _} hstate => hstate.store fun heq => hl ?_
  exact List.mem_map.mpr ⟨e, he, heq⟩

/-- Copying another map stores its entries in slot order, up to none if one of them would be refused. -/
theorem Represents.insertAll {other : WordMap κ ν} (h : m.Represents missing within M) :
    Changes missing within (m.insertAll other) (Spec.insertAll missing M other.entries) := by
  rw [Changes, WordMap.insertAll, Spec.insertAll, h.missing_eq]
  by_cases hmem : missing ∈ other.values
  · -- a map never holds its own missing value, so the maps have different ones
    have hne : other.missing ≠ missing := fun heq => missing_notMem_values (heq ▸ hmem)
    rw [if_pos ⟨hne, List.contains_iff_mem.mpr hmem⟩,
      if_pos (show missing ∈ other.entries.map Prod.snd from hmem), refusal, h.missing_eq]
    exact .refused h _
  · rw [if_neg (fun hboth => hmem (List.contains_iff_mem.mp hboth.2)),
      if_neg (show ¬ missing ∈ other.entries.map Prod.snd from hmem)]
    exact h.storeAll hmem

/-! ### Removing -/

/-- A removal gives back the value that was there. -/
theorem Represents.erase? (h : m.Represents missing within M) (key : κ) :
    (m.erase? key).1 = M.get? key ∧ (m.erase? key).2.Represents missing within (M.erase key) := by
  rw [WordMap.erase?]
  obtain ⟨i, v, rest, hfind, hentry, hpresent⟩ | ⟨hfind, habsent⟩ := h.find?_cases key
  · rw [hfind, hpresent.get?]
    exact ⟨congrArg some (h.valueAt hentry), h.eraseAt hentry hpresent⟩
  · rw [hfind, habsent.get?, habsent.erase]
    exact ⟨rfl, h⟩

/-- An entry is removed only if its value is the one expected. -/
theorem Represents.eraseIfValue (h : m.Represents missing within M) (key : κ) (value : ν) :
    (m.eraseIfValue key value).1 = decide (M.get? key = some value) ∧
      (m.eraseIfValue key value).2.Represents missing within
        (if M.get? key = some value then M.erase key else M) := by
  rw [WordMap.eraseIfValue]
  obtain ⟨i, v, rest, hfind, hentry, hpresent⟩ | ⟨hfind, habsent⟩ := h.find?_cases key
  · rw [hfind, hpresent.get?]
    simp only [h.valueAt hentry, Option.some.injEq]
    by_cases hv : v = value
    · rw [if_pos hv, if_pos hv, decide_eq_true hv]
      exact ⟨rfl, h.eraseAt hentry hpresent⟩
    · rw [if_neg hv, if_neg hv, decide_eq_false hv]
      exact ⟨rfl, h⟩
  · rw [hfind, habsent.get?]
    exact ⟨rfl, h⟩

/-- A map that was cleared stands for the empty one. -/
theorem Represents.clear (h : m.Represents missing within M) : m.clear.Represents missing within {} := by
  obtain rfl := h.missing_eq
  exact ⟨rfl, h.table.clearWith _ fun _ => if_pos rfl⟩

/-- Compaction moves the entries, and changes none. -/
theorem Represents.compact (h : m.Represents missing within M) :
    Changes missing within m.compact (.done M ()) := by
  obtain rfl := h.missing_eq
  rcases h.table.compact (inlineLayout_lawful _) with ⟨hresult, hstate⟩ | ⟨hresult, hstate⟩
  · exact .inl (.of_ok hresult rfl ⟨rfl, hstate⟩)
  · exact .inr ⟨hresult, rfl, hstate⟩

/-! ### Computing -/

/-- **A computed value** is stored where there is none, unless it is the missing one. -/
theorem Represents.computeIfAbsent {f : κ → Reply ν} (h : m.Represents missing within M) :
    Calls missing within (m.computeIfAbsent key f) (Spec.computeIfAbsent missing M key f) := by
  have hsought := h.sought key
  rw [WordMap.computeIfAbsent, Spec.computeIfAbsent]
  generalize m.locate key = outcome at hsought
  cases hsought with
  | found entry present =>
      dsimp only
      rw [h.valueAt entry, present.get?]
      exact .done h _
  | vacant located absent =>
      dsimp only
      rw [absent.get?]
      exact .run h fun value _ => h.insertComputed located absent value

/-- **A value is computed from the former one**, and the missing one removes the entry. -/
theorem Represents.computeIfPresent {f : κ → ν → Reply ν} (h : m.Represents missing within M) :
    Calls missing within (m.computeIfPresent key f) (Spec.computeIfPresent missing M key f) := by
  have hsought := h.sought key
  rw [WordMap.computeIfPresent, Spec.computeIfPresent]
  generalize m.locate key = outcome at hsought
  cases hsought with
  | found entry present =>
      obtain rfl := eq_of_beq present.same
      dsimp only
      rw [h.valueAt entry, present.get?]
      exact .run h fun value _ => .done (h.updateAt entry present value) _
  | vacant _ absent =>
      dsimp only
      rw [absent.get?, h.missing_eq]
      exact .done h _

/-- **A value is computed for a key**, from the missing value where the key is absent. -/
theorem Represents.compute {f : κ → ν → Reply ν} (h : m.Represents missing within M) :
    Calls missing within (m.compute key f) (Spec.compute missing M key f) := by
  have hsought := h.sought key
  rw [WordMap.compute, Spec.compute, Spec.read]
  generalize m.locate key = outcome at hsought
  cases hsought with
  | found entry present =>
      obtain rfl := eq_of_beq present.same
      dsimp only
      rw [h.valueAt entry, present.get?]
      exact .run h fun value _ => .done (h.updateAt entry present value) _
  | vacant located absent =>
      dsimp only
      rw [absent.get?, h.missing_eq]
      exact .run h fun value _ => h.insertComputed located absent value

/-- **A value is merged with the former one**, or stored where there is none. -/
theorem Represents.merge {f : ν → ν → Reply ν} (h : m.Represents missing within M) :
    Calls missing within (m.merge key value f) (Spec.merge missing M key value f) := by
  have hsought := h.sought key
  rw [WordMap.merge, Spec.merge, h.missing_eq]
  -- the missing value is refused before the key is searched for
  by_cases hv : value = missing
  · rw [if_pos hv, if_pos hv, refusal, h.missing_eq]
    exact .refused h _
  rw [if_neg hv, if_neg hv]
  -- of where the search ends only what it means for the entries is used from here on
  generalize m.locate key = outcome at hsought
  cases hsought with
  | found entry present =>
      obtain rfl := eq_of_beq present.same
      dsimp only
      rw [h.valueAt entry, present.get?]
      exact .run h fun combined _ => .done (h.updateAt entry present combined) _
  | vacant located absent =>
      dsimp only
      rw [absent.get?]
      exact .quiet (h.insertAt located absent hv value)

/-! ### Going through the entries -/

/-- The entries in the order in which a scan produces them. -/
def scanOrder (m : WordMap κ ν) : List (κ × ν) := m.layout.scanOrder m.table.slots

theorem Represents.scanOrder_perm (h : m.Represents missing within M) :
    m.scanOrder.Perm M.entries := by
  obtain rfl := h.missing_eq
  exact (EntryLayout.scanOrder_perm h.table.exists_vacantAt).trans h.table.entries

/-- A sweep asks the predicate in the order of a scan, and removes what it selects. -/
theorem Represents.eraseWhere (h : m.Represents missing within M) (selects : κ → ν → Reply Bool) :
    (m.eraseWhere selects).Agrees (Represents missing within)
      (Spec.eraseWhere m.scanOrder selects) := by
  obtain rfl := h.missing_eq
  exact (h.table.eraseWhere (inlineLayout_lawful _) selects).within fun _ _ htable => ⟨rfl, htable⟩

theorem Represents.retain (h : m.Represents missing within M) (keeps : κ → ν → Reply Bool) :
    (m.retain keeps).Agrees (Represents missing within) (Spec.retain m.scanOrder keeps) :=
  (h.eraseWhere _).map _

/-- A cursor over a map, and the walk that it is. -/
structure Scanned (missing : ν) (within : Prop) (c : Cursor κ ν) (w : Walk (κ × ν) ν) : Prop where
  missing_eq : c.missing = missing
  /-- Writing it is refused. -/
  writes_eq : w.writes = Spec.writes missing
  scanning : Table.Scanning (inlineLayout missing) SignedWord.spread within c.inner w.ahead w.current
    w.behind

/-- A new cursor is before all entries, in the order of a scan. -/
theorem Represents.openCursor (h : m.Represents missing within M) :
    Scanned missing within m.openCursor (Spec.walk missing m.scanOrder) := by
  obtain rfl := h.missing_eq
  exact ⟨rfl, rfl, h.table.openCursor⟩

/-- The map under a cursor stands for the entries that the walk has left. -/
theorem Scanned.map {c : Cursor κ ν} {w : Walk (κ × ν) ν} (h : Scanned missing within c w) :
    c.map.Represents missing within ⟨w.contents⟩ :=
  ⟨h.missing_eq, h.scanning.contents⟩

/-- A cursor over a map is a walk along its entries. -/
theorem follows_walk :
    CursorInterface.Follows (Scanned (κ := κ) missing within) where
  next {c w} h := by
    obtain ⟨hnext, hscanning⟩ := h.scanning.next
    obtain rfl := h.missing_eq
    exact ⟨hnext, rfl, h.writes_eq, hscanning⟩
  remove {c w} h := by
    obtain ⟨hremoved, hscanning⟩ := h.scanning.remove (inlineLayout_lawful missing)
    obtain rfl := h.missing_eq
    exact ⟨hremoved, rfl, h.writes_eq, hscanning⟩
  write value := by
    rintro ⟨missing', inner⟩ ⟨_, ahead, current, behind⟩ ⟨rfl, rfl, hscanning⟩
    dsimp only at hscanning
    show (Cursor.setValue _ value).1 = (Walk.write value _).1 ∧
      Scanned missing' within (Cursor.setValue _ value).2 (Walk.write value _).2
    rw [Cursor.setValue, Walk.write]
    dsimp only
    rw [Spec.writes]
    -- the missing value is refused, and the cursor stays where it is
    by_cases hv : value = missing'
    · rw [if_pos hv, if_pos hv]
      exact ⟨rfl, rfl, rfl, hscanning⟩
    rw [if_neg hv, if_neg hv]
    -- before the first entry, and after a removal, there is nothing to write to
    cases current with
    | none =>
        cases hscanning.atEntry with
        | nothing hnone =>
            rw [Table.Cursor.writeCurrent, hnone]
            exact ⟨rfl, rfl, rfl, hscanning⟩
    | some e =>
        obtain ⟨i, hindex, hentry, hset⟩ := hscanning.setAt (inlineLayout_lawful missing') hv
        rw [Table.Cursor.writeCurrent, hindex]
        dsimp only
        rw [(slotAt_of_entryAt? hentry).1]
        exact ⟨rfl, rfl, rfl, hset⟩

/-! ### All operations -/

/-- The order in which an operation goes through the entries: that of a scan, or that of the slots if it only
shows them. -/
def Operation.order (m : WordMap κ ν) : Operation κ ν → List (κ × ν)
  | forEach _ => m.entries
  | _ => m.scanOrder

theorem Represents.order_perm (h : m.Represents missing within M) (op : Operation κ ν) :
    (op.order m).Perm M.entries := by
  cases op with
  | forEach _ => exact h.entries_perm
  | _ => exact h.scanOrder_perm

/-- **Every operation does what is specified of it.** -/
theorem Represents.perform (h : m.Represents missing within M) (op : Operation κ ν) :
    ∃ d, op.Allows missing M d ∧ Calls missing within (op.perform m) d := by
  refine ⟨_, ⟨op.order m, h.order_perm op, rfl⟩, ?_⟩
  -- the table has a vacant slot, so that the searches in front of the operations all end
  have hends : ∀ key, Probe.endless ∉ [m.locate key] := h.endless_notMem
  cases op with
  | get key =>
      rw [Operation.perform, Call.searching_of_notMem (hends key), WordMap.get, WordMap.getD,
        h.get?_eq, h.missing_eq]
      exact .done h _
  | getD key default =>
      rw [Operation.perform, Call.searching_of_notMem (hends key), WordMap.getD, h.get?_eq]
      exact .done h _
  | get? key =>
      rw [Operation.perform, Call.searching_of_notMem (hends key), h.get?_eq]
      exact .done h _
  | contains key =>
      rw [Operation.perform, Call.searching_of_notMem (hends key), WordMap.contains, h.get?_eq,
        ← FiniteMap.contains_eq]
      exact .done h _
  | containsValue value =>
      rw [Operation.perform, h.containsValue_eq]
      exact .done h _
  | len =>
      rw [Operation.perform, show m.len = M.size from h.table.len_eq_length]
      exact .done h _
  | insert key value => exact .quiet (h.insert.map _)
  | insertIfAbsent key value => exact .quiet (h.insertIfAbsent.map _)
  | replace key value => exact .quiet (h.replace.map _)
  | replaceIf key old new => exact .quiet (h.replaceIf.map _)
  | insertAll other => exact .quiet (h.insertAll.map _)
  | erase key =>
      obtain ⟨hold, hstate⟩ := h.erase? key
      rw [Operation.perform, Call.searching_of_notMem (hends key),
        show m.erase key = ((m.erase? key).1.getD m.missing, (m.erase? key).2) from rfl, hold, h.missing_eq]
      exact .done hstate _
  | erase? key =>
      obtain ⟨hold, hstate⟩ := h.erase? key
      rw [Operation.perform, Call.searching_of_notMem (hends key), hold]
      exact .done hstate _
  | eraseIfValue key value =>
      obtain ⟨hanswer, hstate⟩ := h.eraseIfValue key value
      rw [Operation.perform, Call.searching_of_notMem (hends key), Operation.specify, hanswer]
      -- the removal, where there is one, is that of the whole key
      by_cases hv : M.get? key = some value
      · rw [if_pos hv] at hstate ⊢
        rw [decide_eq_true hv]
        exact .done hstate _
      · rw [if_neg hv] at hstate ⊢
        rw [decide_eq_false hv]
        exact .done hstate _
  | eraseWhere selects => exact .inl (((h.eraseWhere selects).mapCalls _).map _)
  | retain keeps => exact .inl (((h.retain keeps).mapCalls _).map _)
  | forEach f => exact .inl (((Call.Agrees.forEach h _ _).mapCalls _).map _)
  | clear => exact .done h.clear _
  | compact => exact .quiet (h.compact.map _)
  | computeIfAbsent key f => exact (h.computeIfAbsent.mapCalls _).map _
  | computeIfPresent key f => exact (h.computeIfPresent.mapCalls _).map _
  | compute key f => exact (h.compute.mapCalls _).map _
  | merge key value f => exact (h.merge.mapCalls _).map _
  | cursor script =>
      -- a script is followed step by step by a walk along the order of a scan
      obtain ⟨hanswers, hlast⟩ := follows_walk.runScript script h.openCursor
      rw [Operation.perform, Operation.specify, hanswers]
      exact .done hlast.map _

end WordMap

end LinearProbing
