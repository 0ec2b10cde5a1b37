import LinearProbing.Proofs.AssociativeCache.FifoSets

/-!
# LinearProbing.Proofs.AssociativeCache.Represents

**The sets in their slots.** The slots of a set hold its list from the first slot on, and are vacant behind
it (`AssociativeCache.Holds`); the keys that are left in vacant slots play no part. An operation on a key
moves entries within the slots of its set only. Its effect is stated as the list that these slots hold
afterwards, with all other slots as they were (`AssociativeCache.Edits`), and then carried over to
`FifoSets` (`Represents.edit`).
-/

namespace LinearProbing

namespace AssociativeCache

variable {κ ν : Type} [SignedWord κ]

/-- What a slot holds. -/
def occupant? (c : AssociativeCache κ ν) (index : Nat) : Option (κ × ν) :=
  (c.slotAt index).held.map ((c.slotAt index).key, ·)

/-- The slots of a set, which start at an index, hold a list and are vacant behind it. -/
def Holds (c : AssociativeCache κ ν) (start : Nat) (l : List (Resident κ ν)) : Prop :=
  ∀ i < c.setSize, c.occupant? (start + i) = l[i]?.map Resident.entry

/-- A cache is the representation of its sets. -/
structure Represents (c : AssociativeCache κ ν) (m : FifoSets κ ν) : Prop where
  valid : m.Valid
  numSets : m.numSets = c.numSets
  setSize : m.setSize = c.setSize
  size : c.slots.size = c.numSets * c.setSize
  /-- The entries of a set take its first slots, in their order. -/
  holds : ∀ j < c.numSets, c.Holds (j * c.setSize) (m.sets j)
  len : c.len = m.size
  hits : c.hits = m.hits
  misses : c.misses = m.misses
  puts : c.puts = m.puts

/-- The slots of one set were changed so that they hold a list; `len` may have changed with them. -/
structure Edits (c c' : AssociativeCache κ ν) (start : Nat) (l : List (Resident κ ν)) : Prop where
  same : c' = { c with slots := c'.slots, len := c'.len }
  size : c'.slots.size = c.slots.size
  holds : c'.Holds start l
  frame : ∀ j, j < start ∨ start + c.setSize ≤ j → c'.occupant? j = c.occupant? j

variable {c c' : AssociativeCache κ ν} {m : FifoSets κ ν} {key : κ} {value : ν}
  {l : List (Resident κ ν)} {start : Nat}

/-! ### Slots -/

/-- Writing into a slot changes that slot only. -/
theorem slotAt_setSlot {i : Nat} (h : i < c.slots.size) (slot : CacheSlot κ ν) (j : Nat) :
    (c.setSlot i slot).slotAt j = if j = i then slot else c.slotAt j := by
  by_cases hj : j = i
  · subst hj
    simp [slotAt, setSlot, h]
  · simp [slotAt, setSlot, hj, Array.getElem?_setIfInBounds_ne (Ne.symm hj)]

theorem valueAt?_eq (c : AssociativeCache κ ν) (i : Nat) :
    c.valueAt? i = (c.occupant? i).map Prod.snd := by
  cases h : (c.slotAt i).held <;> simp [valueAt?, occupant?, h]

/-- What occupies the slots after one was written. -/
theorem occupant?_setSlot {i : Nat} (h : i < c.slots.size) (slot : CacheSlot κ ν) (j : Nat) :
    (c.setSlot i slot).occupant? j =
      if j = i then slot.held.map (slot.key, ·) else c.occupant? j := by
  simp only [occupant?, slotAt_setSlot h]
  split <;> rfl

theorem occupant?_vacate {i : Nat} (h : i < c.slots.size) (j : Nat) :
    (c.vacate i).occupant? j = if j = i then none else c.occupant? j := by
  rw [vacate, occupant?_setSlot h, Option.map_none]

/-- An entry that is moved is in the other slot, and no longer in its own. -/
theorem occupant?_move {source target : Nat} (hs : source < c.slots.size)
    (ht : target < c.slots.size) (j : Nat) :
    (c.move source target).occupant? j =
      if j = source then none else if j = target then c.occupant? source else c.occupant? j := by
  have hs' : source < (c.setSlot target (c.slotAt source)).slots.size := by simpa [setSlot] using hs
  rw [move, occupant?_vacate hs', occupant?_setSlot ht]
  rfl

/-- Only slots differ, and there are as many. -/
structure Rearranges (c c' : AssociativeCache κ ν) : Prop where
  same : c' = { c with slots := c'.slots }
  size : c'.slots.size = c.slots.size

omit [SignedWord κ] in
/-- Moves of entries, one after the other. -/
theorem Rearranges.trans {c'' : AssociativeCache κ ν} (h : c.Rearranges c') (h' : c'.Rearranges c'') :
    c.Rearranges c'' where
  same := h'.same.trans (by rw [h.same])
  size := h'.size.trans h.size

omit [SignedWord κ] in
theorem Rearranges.setSize (h : c.Rearranges c') : c'.setSize = c.setSize := by rw [h.same]

omit [SignedWord κ] in
theorem Rearranges.len (h : c.Rearranges c') : c'.len = c.len := by rw [h.same]

omit [SignedWord κ] in
theorem rearranges_setSlot (c : AssociativeCache κ ν) (i : Nat) (slot : CacheSlot κ ν) :
    c.Rearranges (c.setSlot i slot) := ⟨rfl, by simp [setSlot]⟩

theorem rearranges_vacate (c : AssociativeCache κ ν) (i : Nat) : c.Rearranges (c.vacate i) :=
  rearranges_setSlot ..

theorem rearranges_move (c : AssociativeCache κ ν) (source target : Nat) :
    c.Rearranges (c.move source target) :=
  (rearranges_setSlot ..).trans (rearranges_vacate ..)

/-- Moving entries back by one keeps the counters and the number of slots. -/
theorem rearranges_moveBack (start count : Nat) (c : AssociativeCache κ ν) :
    c.Rearranges (moveBack start count c) := by
  induction count generalizing c with
  | zero => exact ⟨rfl, rfl⟩
  | succ count ih => exact (rearranges_move ..).trans (ih _)

/-- Moving entries forward by one keeps the counters and the number of slots. -/
theorem rearranges_moveForward (count index : Nat) (c : AssociativeCache κ ν) :
    c.Rearranges (moveForward count index c) := by
  induction count generalizing c index with
  | zero => exact ⟨rfl, rfl⟩
  | succ count ih =>
      rw [moveForward]
      split
      · exact ⟨rfl, rfl⟩
      · exact (rearranges_move ..).trans (ih ..)

/-- Moving back leaves the first slot vacant. -/
theorem occupant?_moveBack {count : Nat} (h : start + count < c.slots.size) (j : Nat) :
    (moveBack start count c).occupant? j =
      if start < j ∧ j ≤ start + count then c.occupant? (j - 1)
      else if j = start ∧ 0 < count then none else c.occupant? j := by
  induction count generalizing c with
  | zero =>
      rw [moveBack, if_neg (by omega), if_neg (by omega)]
  | succ count ih =>
      have hsize := (rearranges_move c (start + count) (start + count + 1)).size
      have hmove := occupant?_move (show start + count < c.slots.size by omega)
        (show start + count + 1 < c.slots.size by omega)
      rw [moveBack, ih (by omega)]
      simp only [hmove]
      grind

/-- Moving forward closes the gap in a run of occupied slots. -/
theorem occupant?_moveForward {count index : Nat} (h : index + count < c.slots.size)
    (hvacant : c.occupant? index = none)
    (hrun : ∀ a b, index < a → a ≤ b → b ≤ index + count → c.occupant? a = none →
      c.occupant? b = none) (j : Nat) :
    (moveForward count index c).occupant? j =
      if index ≤ j ∧ j < index + count then c.occupant? (j + 1)
      else if j = index + count then none else c.occupant? j := by
  -- one slot after the other; the vacant one moves along
  induction count generalizing c index with
  | zero =>
      rw [moveForward, if_neg (by omega)]
      split
      · next hj => rw [hj, Nat.add_zero, hvacant]
      · rfl
  | succ count ih =>
      rw [moveForward]
      split
      · next hnone =>
          have hend : ∀ b, index ≤ b → b ≤ index + (count + 1) → c.occupant? b = none := by
            intro b hlow hhigh
            rcases Nat.eq_or_lt_of_le hlow with rfl | hlt
            · exact hvacant
            · refine hrun (index + 1) b (by omega) hlt hhigh ?_
              rw [valueAt?_eq, Option.isNone_iff_eq_none, Option.map_eq_none_iff] at hnone
              exact hnone
          -- the loop stops early at a vacant slot, but then all that follow are vacant too
          split_ifs with hin hlast
          · rw [hend j hin.1 (by omega), hend (j + 1) (by omega) (by omega)]
          · rw [hend j (by omega) (by omega)]
          · rfl
      · have hsize := (rearranges_move c (index + 1) index).size
        have hmove := occupant?_move (show index + 1 < c.slots.size by omega)
          (show index < c.slots.size by omega)
        have hvacated : (c.move (index + 1) index).occupant? (index + 1) = none := by
          rw [hmove, if_pos rfl]
        rw [ih (by omega) hvacated ?_]
        · simp only [hmove]
          -- by where the slot is: behind the vacant one, at it, or past it
          split_ifs <;> first | rfl | omega | (congr 1; omega)
        · intro a b hlow hle hhigh
          rw [hmove, hmove, if_neg (by omega), if_neg (by omega), if_neg (by omega),
            if_neg (by omega)]
          exact hrun a b (by omega) hle (by omega)

/-! ### The place of a key -/

/-- The search for a key goes along the list. -/
theorem positionFrom?_eq {slots index : Nat} (hlength : l.length ≤ slots)
    (hholds : ∀ i < slots, c.occupant? (index + i) = l[i]?.map Resident.entry) :
    c.positionFrom? key slots index = (l.findIdx? (·.key = key)).map (index + ·) := by
  induction slots generalizing l index with
  | zero =>
      rw [List.eq_nil_of_length_eq_zero (Nat.le_zero.mp hlength)]
      rfl
  | succ slots ih =>
      have hfirst := hholds 0 (Nat.succ_pos _)
      simp only [Nat.add_zero, occupant?] at hfirst
      -- past the members there is a vacant slot, at which the search gives up
      cases l with
      | nil =>
          rw [List.getElem?_nil, Option.map_none, Option.map_eq_none_iff] at hfirst
          simp [positionFrom?, hfirst]
      | cons r rest =>
          obtain ⟨v, hheld, hentry⟩ := Option.map_eq_some_iff.mp hfirst
          obtain ⟨hkey, -⟩ := Prod.mk.inj hentry
          simp only [positionFrom?, hheld, hkey, List.findIdx?_cons, Option.isNone_some, Bool.false_eq_true,
            if_false, decide_eq_true_eq]
          split
          · simp
          · rw [ih (Nat.le_of_succ_le_succ hlength) fun i hi => ?_]
            · rw [Option.map_map]
              exact congrArg (Option.map · _) (funext fun i => by simp; omega)
            · have hnext := hholds (i + 1) (Nat.succ_lt_succ hi)
              rwa [← Nat.add_assoc, Nat.add_right_comm, List.getElem?_cons_succ] at hnext

/-- The slots of a set start where the sets before it end. -/
theorem Represents.setStart_eq (h : c.Represents m) (key : κ) :
    c.setStart key = m.setOf key * c.setSize := by
  rw [setStart, FifoSets.setOf, h.numSets]

theorem Represents.setOf_lt (h : c.Represents m) (key : κ) : m.setOf key < c.numSets :=
  h.numSets ▸ FifoSets.setOf_lt h.valid key

/-- The slots of the set of a key hold its members, the newest first. -/
theorem Represents.holds_members (h : c.Represents m) (key : κ) :
    c.Holds (c.setStart key) (m.members key) := by
  rw [h.setStart_eq]
  exact h.holds _ (h.setOf_lt key)

theorem Represents.length_le (h : c.Represents m) (key : κ) :
    (m.members key).length ≤ c.setSize := h.setSize ▸ h.valid.fits _

/-- The slots of a set are slots of the cache. -/
theorem Represents.window_le (h : c.Represents m) (key : κ) :
    c.setStart key + c.setSize ≤ c.slots.size := by
  rw [h.size, h.setStart_eq, ← Nat.succ_mul]
  exact Nat.mul_le_mul_right _ (h.setOf_lt key)

theorem Represents.setSize_pos (h : c.Represents m) : 0 < c.setSize := h.setSize ▸ h.valid.setSize_pos

/-- A key that is in none of its slots is not found. -/
theorem Represents.position?_of_absent (h : c.Represents m) (habsent : m.get? key = none) :
    c.position? key = none := by
  rw [position?, positionFrom?_eq (h.length_le key) (h.holds_members key), Option.map_eq_none_iff,
    List.findIdx?_eq_none_iff]
  simpa using FifoSets.get?_eq_none_iff.mp habsent

/-- A key that is present has one place in the list of its set, and its slot is that far into the
set. -/
theorem Represents.exists_position (h : c.Represents m) {value : ν} (hget : m.get? key = some value) :
    ∃ i r, (m.members key).findIdx? (·.key = key) = some i ∧ (m.members key)[i]? = some r ∧
      r.key = key ∧ r.value = value ∧ i < c.setSize ∧ c.position? key = some (c.setStart key + i) ∧
      c.occupant? (c.setStart key + i) = some (key, value) := by
  obtain ⟨r, hfind, rfl⟩ := Option.map_eq_some_iff.mp hget
  obtain ⟨i, hi⟩ : ∃ i, (m.members key).findIdx? (·.key = key) = some i := by
    rw [← Option.isSome_iff_exists, List.findIdx?_isSome, List.any_eq_true]
    exact ⟨r, List.mem_of_find?_eq_some hfind, by simpa using List.find?_some hfind⟩
  have hr : (m.members key)[i]? = some r := by
    rw [List.find?_eq_bind_findIdx?_getElem?, hi] at hfind
    exact hfind
  have hkey : r.key = key := by simpa using List.find?_some hfind
  have hlt : i < c.setSize :=
    ((List.getElem?_eq_some_iff.mp hr).1).trans_le (h.length_le key)
  -- the place among the members is the place among the slots of the set
  refine ⟨i, r, hi, hr, hkey, rfl, hlt, ?_, ?_⟩
  · rw [position?, positionFrom?_eq (h.length_le key) (h.holds_members key), hi]
    rfl
  · rw [h.holds_members key i hlt, hr, Option.map_some, Resident.entry, hkey]

/-- The search for a key ends at a slot of the cache, if it finds one. -/
theorem Represents.position?_cases (h : c.Represents m) (key : κ) :
    c.position? key = none ∨ ∃ index < c.slots.size, c.position? key = some index := by
  cases hget : m.get? key with
  | none => exact Or.inl (h.position?_of_absent hget)
  | some value =>
      obtain ⟨i, -, -, -, -, -, hi, hposition, -⟩ := h.exists_position hget
      exact Or.inr ⟨_, (Nat.add_lt_add_left hi _).trans_le (h.window_le key), hposition⟩

/-! ### Counters -/

/-- A read that finds its key is counted. -/
theorem Represents.hit (h : c.Represents m) :
    Represents { c with hits := c.hits + 1 } { m with hits := m.hits + 1 } :=
  { h with valid := { h.valid with }, hits := congrArg (· + 1) h.hits }

/-- A read that finds nothing is counted. -/
theorem Represents.missed (h : c.Represents m) :
    Represents { c with misses := c.misses + 1 } { m with misses := m.misses + 1 } :=
  { h with valid := { h.valid with }, misses := congrArg (· + 1) h.misses }

/-- A store is counted. -/
theorem Represents.stored (h : c.Represents m) :
    Represents { c with puts := c.puts + 1 } { m with puts := m.puts + 1 } :=
  { h with valid := { h.valid with }, puts := congrArg (· + 1) h.puts }

/-- Setting the counters to zero leaves the entries alone. -/
theorem Represents.resetCounters (h : c.Represents m) :
    c.resetCounters.Represents { m with hits := 0, misses := 0, puts := 0 } :=
  { h with valid := { h.valid with }, hits := rfl, misses := rfl, puts := rfl }

/-- The number of admitted entries is nothing that a cache knows. -/
theorem Represents.admitted (h : c.Represents m) :
    c.Represents { m with admitted := m.admitted + 1 } :=
  { h with
    valid := { h.valid with born_lt := fun j r hr => Nat.lt_succ_of_lt (h.valid.born_lt j r hr) } }

/-! ### Edits of one set -/

theorem Edits.setSize (h : Edits c c' start l) : c'.setSize = c.setSize := by rw [h.same]

theorem Edits.numSets (h : Edits c c' start l) : c'.numSets = c.numSets := by rw [h.same]

/-- An edit may as well be counted in `len`. -/
theorem Edits.withLen (h : Edits c c' start l) (len : Nat) : Edits c { c' with len } start l where
  same := by rw [h.same]
  size := h.size
  holds := h.holds
  frame := h.frame

/-- **An edit of the set of a key carries over to the lists.** -/
theorem Represents.edit (h : c.Represents m) (hedits : Edits c c' (c.setStart key) l)
    (hvalid : (m.withMembers key l).Valid)
    (hlen : c'.len + (m.members key).length = c.len + l.length) :
    c'.Represents (m.withMembers key l) := by
  have hsize : (m.withMembers key l).size + (m.members key).length = m.size + l.length :=
    FifoSets.size_withMembers h.valid
  have hsame := hedits.same
  refine
    { valid := hvalid
      numSets := h.numSets.trans hedits.numSets.symm
      setSize := h.setSize.trans hedits.setSize.symm
      size := ?_
      holds := ?_
      len := ?_
      hits := by rw [hsame]; exact h.hits
      misses := by rw [hsame]; exact h.misses
      puts := by rw [hsame]; exact h.puts }
  · rw [hedits.size, h.size, hedits.numSets, hedits.setSize]
  · intro j hj i hi
    rw [hedits.numSets] at hj
    rw [hedits.setSize] at hi ⊢
    by_cases heq : j = m.setOf key
    · subst heq
      have hset : (m.withMembers key l).sets (m.setOf key) = l := FifoSets.members_withMembers
      rw [hset, ← h.setStart_eq]
      exact hedits.holds i (hedits.setSize ▸ hi)
    · rw [FifoSets.sets_withMembers_of_ne heq, hedits.frame _ ?_]
      · exact h.holds j hj i hi
      · -- another set lies before or behind the one that was edited
        rw [h.setStart_eq]
        rcases Nat.lt_or_gt_of_ne heq with hlt | hgt
        · have hmul := Nat.mul_le_mul_right c.setSize (Nat.succ_le_of_lt hlt)
          rw [Nat.succ_mul] at hmul
          omega
        · have hmul := Nat.mul_le_mul_right c.setSize (Nat.succ_le_of_lt hgt)
          rw [Nat.succ_mul] at hmul
          omega
  · have hbefore := h.len
    omega

/-- The value of a key is replaced in its slot. -/
theorem Represents.edits_replace (h : c.Represents m) {i : Nat} {r : Resident κ ν}
    (hfind : (m.members key).findIdx? (·.key = key) = some i) (hr : (m.members key)[i]? = some r)
    (hkey : r.key = key) (value : ν) :
    Edits c (c.setSlot (c.setStart key + i)
        { c.slotAt (c.setStart key + i) with held := some value })
      (c.setStart key) ((m.members key).map (Resident.replace key value)) := by
  have hlt : i < c.setSize :=
    ((List.getElem?_eq_some_iff.mp hr).1).trans_le (h.length_le key)
  have hbound : c.setStart key + i < c.slots.size :=
    (Nat.add_lt_add_left hlt _).trans_le (h.window_le key)
  have hrearranges := rearranges_setSlot c (c.setStart key + i)
    { c.slotAt (c.setStart key + i) with held := some value }
  refine ⟨hrearranges.same, hrearranges.size, ?_, ?_⟩
  · intro a ha
    rw [occupant?_setSlot hbound]
    have hold := h.holds_members key a ha
    by_cases hai : a = i
    · subst hai
      have hslot : (c.slotAt (c.setStart key + a)).key = key := by
        rw [hr, Option.map_some, occupant?] at hold
        obtain ⟨v, -, hentry⟩ := Option.map_eq_some_iff.mp hold
        exact (Prod.mk.inj hentry).1.trans hkey
      rw [if_pos rfl, List.getElem?_map, hr]
      simp [Resident.entry, Resident.replace, hkey, hslot]
    · rw [if_neg (by omega), hold, List.getElem?_map, Option.map_map]
      cases hget : (m.members key)[a]? with
      | none => rfl
      | some s =>
          -- keys are distinct, so that no other entry is replaced
          have hne : s.key ≠ key := by
            intro hs
            have hdistinct : ((m.members key).map Resident.key).Nodup := h.valid.distinct _
            have hlength : a < ((m.members key).map Resident.key).length := by
              rw [List.length_map]
              exact (List.getElem?_eq_some_iff.mp hget).1
            refine hai ((List.getElem?_inj hlength hdistinct).mp ?_)
            simp [hget, hr, hs, hkey]
          simp [Resident.replace, hne]
  · intro j hj
    rw [occupant?_setSlot hbound, if_neg (by omega)]

/-- A cache with its new entry: the others of the set are moved back, and the last slot's content is
dropped. -/
def withNewest (c : AssociativeCache κ ν) (start : Nat) (key : κ) (value : ν) :
    AssociativeCache κ ν :=
  (moveBack start (c.setSize - 1) (c.vacate (start + c.setSize - 1))).setSlot start ⟨key, some value⟩

/-- Making room and putting the newest entry in front rearranges the slots. -/
theorem rearranges_withNewest (c : AssociativeCache κ ν) (start : Nat) (key : κ) (value : ν) :
    c.Rearranges (c.withNewest start key value) :=
  ((rearranges_vacate ..).trans (rearranges_moveBack ..)).trans (rearranges_setSlot ..)

/-- A full set lets its oldest entry go. -/
theorem insertFront_of_full {oldest : ν} (h : c.valueAt? (start + c.setSize - 1) = some oldest) :
    c.insertFront start key value =
      { state := c.withNewest start key value, disposed := [oldest]
        events := [.evicted (start / c.setSize)] } := by
  simp only [insertFront, h]
  rfl

/-- A set that is not full takes one more entry. -/
theorem insertFront_of_room (h : c.valueAt? (start + c.setSize - 1) = none) :
    c.insertFront start key value =
      { state := { c.withNewest start key value with len := c.len + 1 } } := by
  simp only [insertFront, h]
  rw [← (rearranges_withNewest c start key value).len]
  rfl

theorem size_insertFront (c : AssociativeCache κ ν) (start : Nat) (key : κ) (value : ν) :
    (c.insertFront start key value).state.slots.size = c.slots.size := by
  have hsize := (rearranges_withNewest c start key value).size
  cases holdest : c.valueAt? (start + c.setSize - 1) with
  | none => rw [insertFront_of_room holdest, ← hsize]
  | some oldest => rw [insertFront_of_full holdest, ← hsize]

/-- **A new entry goes in front** of the members of its set, the last of which falls out if the set is full. -/
theorem edits_withNewest (hpos : 0 < c.setSize) (hbound : start + c.setSize ≤ c.slots.size)
    (hholds : c.Holds start l) (r : Resident κ ν) :
    Edits c (c.withNewest start r.key r.value) start (r :: l.take (c.setSize - 1)) := by
  have hvacate := rearranges_vacate c (start + c.setSize - 1)
  have hmoved := hvacate.trans (rearranges_moveBack start (c.setSize - 1) _)
  have hall := rearranges_withNewest c start r.key r.value
  -- first what the three steps do to every slot, then what this means for the list
  have hoccupant : ∀ j, (c.withNewest start r.key r.value).occupant? j =
      if j = start then some r.entry
      else if start < j ∧ j < start + c.setSize then c.occupant? (j - 1)
      else c.occupant? j := by
    intro j
    rw [withNewest, occupant?_setSlot (by rw [hmoved.size]; omega),
      occupant?_moveBack (by rw [hvacate.size]; omega), occupant?_vacate (by omega),
      occupant?_vacate (by omega)]
    simp only [Resident.entry]
    grind
  refine ⟨by rw [hall.same], hall.size, ?_, ?_⟩
  · intro i hi
    rw [hall.setSize] at hi
    rw [hoccupant]
    cases i with
    | zero => simp
    | succ i =>
        have hprev := hholds i (by omega)
        rw [if_neg (by omega), if_pos (by omega), List.getElem?_cons_succ,
          List.getElem?_take_of_lt (by omega), ← hprev]
        rfl
  · intro j hj
    rw [hoccupant, if_neg (by omega), if_neg (by omega)]

/-- The gap that a removed entry leaves is closed by those behind it. -/
theorem edits_close {i : Nat} (hi : i < c.setSize) (hbound : start + c.setSize ≤ c.slots.size)
    (hlength : l.length ≤ c.setSize) (hholds : c.Holds start l) :
    Edits c (moveForward (start + c.setSize - 1 - (start + i)) (start + i) (c.vacate (start + i)))
      start (l.eraseIdx i) := by
  have hvacate := rearranges_vacate c (start + i)
  have hall := hvacate.trans
    (rearranges_moveForward (start + c.setSize - 1 - (start + i)) (start + i) _)
  have hvacant := occupant?_vacate (c := c) (i := start + i) (by omega)
  -- first what the two steps do to every slot, then what this means for the list
  have hoccupant : ∀ j, (moveForward (start + c.setSize - 1 - (start + i)) (start + i)
      (c.vacate (start + i))).occupant? j =
        if start + i ≤ j ∧ j < start + c.setSize - 1 then c.occupant? (j + 1)
        else if j = start + c.setSize - 1 then none else c.occupant? j := by
    intro j
    rw [occupant?_moveForward (by rw [hvacate.size]; omega) (by rw [hvacant, if_pos rfl]) ?_]
    · rw [hvacant, hvacant]
      grind
    · intro a b hlow hle hhigh
      rw [hvacant, hvacant, if_neg (by omega), if_neg (by omega)]
      have ha := hholds (a - start) (by omega)
      have hb := hholds (b - start) (by omega)
      rw [Nat.add_sub_cancel' (by omega)] at ha hb
      rw [ha, hb, Option.map_eq_none_iff, Option.map_eq_none_iff, List.getElem?_eq_none_iff,
        List.getElem?_eq_none_iff]
      omega
  refine ⟨by rw [hall.same], hall.size, ?_, ?_⟩
  · intro a ha
    rw [hall.setSize] at ha
    rw [hoccupant, List.getElem?_eraseIdx]
    by_cases hai : a < i
    · rw [if_neg (by omega), if_neg (by omega), if_pos hai]
      exact hholds a ha
    · rw [if_neg hai]
      -- the last slot of a full set has none behind it from which an entry could come
      by_cases hlast : a + 1 = c.setSize
      · rw [if_neg (by omega), if_pos (by omega), List.getElem?_eq_none (by omega)]
        rfl
      · rw [if_pos (by omega)]
        exact hholds (a + 1) (by omega)
  · intro j hj
    rw [hoccupant, if_neg (by omega), if_neg (by omega)]

/-! ### Entries -/

/-- The slots of so many sets, set by set. -/
theorem range_mul (sets size : Nat) :
    List.range (sets * size) =
      (List.range sets).flatMap fun j => (List.range size).map (j * size + ·) := by
  induction sets with
  | zero => simp
  | succ sets ih => rw [Nat.succ_mul, List.range_add, ih, List.range_succ, List.flatMap_append]; simp

/-- A list is read by its indices, also beyond its end. -/
theorem filterMap_range_getElem? {α : Type} {l : List α} {size : Nat} (h : l.length ≤ size) :
    (List.range size).filterMap (l[·]?) = l := by
  induction size generalizing l with
  | zero => rw [List.eq_nil_of_length_eq_zero (Nat.le_zero.mp h)]; rfl
  | succ size ih =>
      cases l with
      | nil => simp
      | cons a rest =>
          rw [List.range_succ_eq_map, List.filterMap_cons_some (b := a) (by simp), List.filterMap_map]
          exact congrArg (a :: ·) (ih (Nat.le_of_succ_le_succ h))

/-- The entries are the occupants, in slot order. -/
theorem entries_eq_filterMap_occupant? (c : AssociativeCache κ ν) :
    c.entries = (List.range c.slots.size).filterMap c.occupant? := by
  have hslots : c.slots.toList = (List.range c.slots.size).map c.slotAt := by
    refine List.ext_getElem (by simp) fun i hi hi' => ?_
    have hlt : i < c.slots.size := by simpa using hi
    simp [slotAt, hlt]
  rw [entries, hslots, List.filterMap_map]
  rfl

/-- The entries of a cache are those of its sets, one set after the other. -/
theorem Represents.entries_eq (h : c.Represents m) : c.entries = m.entries := by
  rw [entries_eq_filterMap_occupant?, h.size, range_mul, List.filterMap_flatMap, FifoSets.entries,
    h.numSets]
  refine List.flatMap_congr fun j hj => ?_
  have hholds := h.holds j (List.mem_range.mp hj)
  have hfits : ((m.sets j).map Resident.entry).length ≤ c.setSize := by
    rw [List.length_map, ← h.setSize]
    exact h.valid.fits j
  rw [List.filterMap_map]
  calc (List.range c.setSize).filterMap (c.occupant? ∘ (j * c.setSize + ·))
      = (List.range c.setSize).filterMap (((m.sets j).map Resident.entry)[·]?) := by
        refine List.filterMap_congr fun i hi => ?_
        rw [List.getElem?_map]
        exact hholds i (List.mem_range.mp hi)
    _ = (m.sets j).map Resident.entry := filterMap_range_getElem? hfits

end AssociativeCache

end LinearProbing
