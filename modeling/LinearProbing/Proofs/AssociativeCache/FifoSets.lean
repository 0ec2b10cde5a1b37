import LinearProbing.AssociativeCache
import LinearProbing.Proofs.CacheCalls
import Mathlib.Algebra.Order.BigOperators.Group.Finset
import Mathlib.Logic.Function.Basic

/-!
# LinearProbing.Proofs.AssociativeCache.FifoSets

**Independent queues of bounded length.** What a set-associative cache is meant to be: for each set a
list of entries, the newest first, with no regard to slots. Each entry remembers how many entries had been
admitted before it (`Resident.born`), so that "the one that has been there longest" can be said of a set
without reference to the order of its list; that the two agree is part of `FifoSets.Valid`.
-/

namespace LinearProbing

/-- An entry of a cache, with the number of entries that were admitted before it. -/
structure Resident (κ ν : Type) where
  key : κ
  value : ν
  born : Nat

namespace Resident

variable {κ ν : Type}

/-- The entry that a member of a set stands for. -/
def entry (r : Resident κ ν) : κ × ν := (r.key, r.value)

/-- The entry with another value, if it is the one of a key. -/
def replace [DecidableEq κ] (key : κ) (value : ν) (r : Resident κ ν) : Resident κ ν :=
  if r.key = key then { r with value } else r

variable [DecidableEq κ] (key : κ) (value : ν) (r : Resident κ ν)

@[simp] theorem replace_key : (r.replace key value).key = r.key := by
  unfold replace
  split <;> rfl

/-- A new value does not make a member younger. -/
@[simp] theorem replace_born : (r.replace key value).born = r.born := by
  unfold replace
  split <;> rfl

end Resident

/-- The sets of a cache as lists of entries, the newest first. -/
structure FifoSets (κ ν : Type) where
  numSets : Nat
  /-- The greatest number of entries of a set. -/
  setSize : Nat
  sets : Nat → List (Resident κ ν) := fun _ => []
  /-- How many entries were admitted so far. -/
  admitted : Nat := 0
  hits : Nat := 0
  misses : Nat := 0
  puts : Nat := 0

namespace FifoSets

variable {κ ν : Type} [SignedWord κ]

omit [SignedWord κ] in
/-- The entries of all sets, one set after the other, the newest first in each. -/
def entries (m : FifoSets κ ν) : List (κ × ν) :=
  (List.range m.numSets).flatMap fun j => (m.sets j).map Resident.entry

omit [SignedWord κ] in
/-- The number of all entries. -/
def size (m : FifoSets κ ν) : Nat := ∑ j ∈ Finset.range m.numSets, (m.sets j).length

/-- The set that a key belongs to. -/
def setOf (m : FifoSets κ ν) (key : κ) : Nat :=
  homeSlot (SignedWord.spread key).toNat m.numSets

/-- The set of a key. -/
def members (m : FifoSets κ ν) (key : κ) : List (Resident κ ν) := m.sets (m.setOf key)

/-- Another list in place of the set of a key. -/
def withMembers (m : FifoSets κ ν) (key : κ) (l : List (Resident κ ν)) : FifoSets κ ν :=
  { m with sets := Function.update m.sets (m.setOf key) l }

/-- The value under a key, which can only be in the set of the key. -/
def get? (m : FifoSets κ ν) (key : κ) : Option ν :=
  ((m.members key).find? (·.key = key)).map Resident.value

/-! ### Operations -/

/-- A value under a new key, in front of its set. The last entry of a full set makes room. -/
def takeIn (m : FifoSets κ ν) (key : κ) (value : ν) : Disposal (FifoSets κ ν) ν :=
  let present := m.members key
  let newest : Resident κ ν := ⟨key, value, m.admitted⟩
  let m := { m with admitted := m.admitted + 1 }
  if present.length = m.setSize then
    { state := m.withMembers key (newest :: present.dropLast)
      disposed := (present.getLast?.map Resident.value).toList
      events := [.evicted (m.setOf key)] }
  else { state := m.withMembers key (newest :: present) }

/-- A value under a key. A key that is present keeps its place and its age. -/
def insert (m : FifoSets κ ν) (key : κ) (value : ν) : Disposal (FifoSets κ ν) ν :=
  let m := { m with puts := m.puts + 1 }
  match m.get? key with
  | some old =>
    { state := m.withMembers key ((m.members key).map (Resident.replace key value))
      disposed := [old] }
  | none => m.takeIn key value

/-- Reads the value of a key, or takes in one that a function makes; both are counted. -/
def computeIfAbsent (m : FifoSets κ ν) (key : κ) (f : κ → Reply (Option ν)) :
    DisposingCall (FifoSets κ ν) κ ν (Option ν) :=
  match m.get? key with
  | some value => { toCall := .done { m with hits := m.hits + 1 } (some value) }
  | none =>
    let m := { m with misses := m.misses + 1 }
    match f key with
    | .panics => { toCall := .after key (.fail m .panicked) }
    | .answers none => { toCall := .after key (.done m none) }
    | .answers (some value) =>
      let stored := { m with puts := m.puts + 1 }.takeIn key value
      { result := .ok (some value), state := stored.state, events := stored.events, calls := [key]
        disposed := stored.disposed }

/-- Reads a value, and counts whether there was one. -/
def get (m : FifoSets κ ν) (key : κ) : Option ν × FifoSets κ ν :=
  match m.get? key with
  | some value => (some value, { m with hits := m.hits + 1 })
  | none => (none, { m with misses := m.misses + 1 })

/-- The sets without a key; the other entries keep their order. -/
def erase (m : FifoSets κ ν) (key : κ) : Option ν × FifoSets κ ν :=
  (m.get? key, m.withMembers key ((m.members key).eraseP (·.key = key)))

omit [SignedWord κ] in
/-- Empties all sets; the counters stay. -/
def clear (m : FifoSets κ ν) : Disposal (FifoSets κ ν) ν where
  state := { m with sets := fun _ => [] }
  disposed := m.entries.map Prod.snd
  events := [.cacheCleared m.size]

/-! ### What is true of all of them -/

/-- The sets are as bounded queues of distinct keys are. -/
structure Valid (m : FifoSets κ ν) : Prop where
  numSets_pos : 0 < m.numSets
  setSize_pos : 0 < m.setSize
  fits : ∀ j, (m.sets j).length ≤ m.setSize
  /-- A key only ever lives in its own set. -/
  home : ∀ j, ∀ r ∈ m.sets j, m.setOf r.key = j
  distinct : ∀ j, ((m.sets j).map Resident.key).Nodup
  newestFirst : ∀ j, (m.sets j).Pairwise fun r older => older.born < r.born
  born_lt : ∀ j, ∀ r ∈ m.sets j, r.born < m.admitted

variable {m : FifoSets κ ν} {key : κ} {value : ν} {l : List (Resident κ ν)}

/-- Empty sets are in order. -/
theorem valid_empty {numSets setSize : Nat} (hsets : 0 < numSets) (hsize : 0 < setSize) :
    Valid { numSets, setSize : FifoSets κ ν } where
  numSets_pos := hsets
  setSize_pos := hsize
  fits _ := Nat.zero_le _
  home := by simp
  distinct := by simp
  newestFirst := by simp
  born_lt := by simp

theorem setOf_lt (h : m.Valid) (key : κ) : m.setOf key < m.numSets := homeSlot_lt h.numSets_pos

@[simp] theorem members_withMembers : (m.withMembers key l).members key = l :=
  Function.update_self ..

/-- Putting a list in the place of one set leaves the others. -/
theorem sets_withMembers_of_ne {j : Nat} (h : j ≠ m.setOf key) :
    (m.withMembers key l).sets j = m.sets j :=
  Function.update_of_ne h ..

@[simp] theorem withMembers_members : m.withMembers key (m.members key) = m := by
  simp [withMembers, members]

omit [SignedWord κ] in
/-- There are as many entries as members of all sets. -/
theorem length_entries (m : FifoSets κ ν) : m.entries.length = m.size := by
  rw [FifoSets.entries, List.length_flatMap, FifoSets.size, Finset.sum_eq_multiset_sum,
    Finset.range_val, Multiset.range, Multiset.map_coe, Multiset.sum_coe]
  simp only [List.length_map]

/-- The entries are those of one set and those of the others. -/
theorem exists_others (h : m.Valid) (key : κ) :
    ∃ others, ∀ l, (m.withMembers key l).entries.Perm (l.map Resident.entry ++ others) := by
  have hmem : m.setOf key ∈ List.range m.numSets := List.mem_range.mpr (setOf_lt h key)
  refine ⟨((List.range m.numSets).erase (m.setOf key)).flatMap fun j =>
    (m.sets j).map Resident.entry, fun l => ?_⟩
  have hothers : ∀ j ∈ (List.range m.numSets).erase (m.setOf key),
      ((m.withMembers key l).sets j).map Resident.entry = (m.sets j).map Resident.entry := by
    intro j hj
    rw [sets_withMembers_of_ne (List.nodup_range.mem_erase_iff.mp hj).1]
  have hset : (m.withMembers key l).sets (m.setOf key) = l := members_withMembers
  have hsplit := (List.perm_cons_erase hmem).flatMap_right fun j =>
    ((m.withMembers key l).sets j).map Resident.entry
  rwa [List.flatMap_cons, hset, List.flatMap_congr hothers] at hsplit

/-- The size changes by what is put in the place of one set. -/
theorem size_withMembers (h : m.Valid) :
    (m.withMembers key l).size + (m.members key).length = m.size + l.length := by
  obtain ⟨others, hothers⟩ := exists_others h key
  have hafter := (hothers l).length_eq
  have hbefore := (hothers (m.members key)).length_eq
  rw [withMembers_members] at hbefore
  simp only [length_entries, List.length_append, List.length_map] at hbefore hafter
  omega

theorem length_members_le (h : m.Valid) (key : κ) : (m.members key).length ≤ m.size :=
  Finset.single_le_sum (f := fun j => (m.sets j).length) (fun _ _ => Nat.zero_le _)
    (by simpa using setOf_lt h key)

theorem Valid.size_le (h : m.Valid) : m.size ≤ m.numSets * m.setSize := by
  calc m.size ≤ ∑ _j ∈ Finset.range m.numSets, m.setSize := Finset.sum_le_sum fun j _ => h.fits j
    _ = m.numSets * m.setSize := by simp

/-- What has to hold of a list that takes the place of the set of a key. -/
theorem Valid.withMembers (h : m.Valid) (hlength : l.length ≤ m.setSize)
    (hhome : ∀ r ∈ l, m.setOf r.key = m.setOf key) (hdistinct : (l.map Resident.key).Nodup)
    (hnewest : l.Pairwise fun r older => older.born < r.born)
    (hborn : ∀ r ∈ l, r.born < m.admitted) : (m.withMembers key l).Valid := by
  have hset : ∀ {P : Nat → List (Resident κ ν) → Prop}, P (m.setOf key) l →
      (∀ j, P j (m.sets j)) → ∀ j, P j ((m.withMembers key l).sets j) := by
    intro P hl hm j
    -- each part of the order is about one set at a time: the one that is replaced, or another
    by_cases hj : j = m.setOf key
    · subst hj
      exact (congrArg (P _) members_withMembers).mpr hl
    · rw [sets_withMembers_of_ne hj]
      exact hm j
  exact
    { numSets_pos := h.numSets_pos
      setSize_pos := h.setSize_pos
      fits := hset (P := fun _ l => l.length ≤ m.setSize) hlength h.fits
      home := hset (P := fun j l => ∀ r ∈ l, m.setOf r.key = j) hhome h.home
      distinct := hset (P := fun _ l => (l.map Resident.key).Nodup) hdistinct h.distinct
      newestFirst := hset (P := fun _ l => l.Pairwise fun r older => older.born < r.born) hnewest
        h.newestFirst
      born_lt := hset (P := fun _ l => ∀ r ∈ l, r.born < m.admitted) hborn h.born_lt }

theorem Valid.home_members (h : m.Valid) {r : Resident κ ν} (hr : r ∈ m.members key) :
    m.setOf r.key = m.setOf key := h.home _ r hr

/-- A full set lets its last member go, which is the oldest. -/
theorem takeIn_of_full (hfull : (m.members key).length = m.setSize) :
    m.takeIn key value =
      { state := { m with admitted := m.admitted + 1 }.withMembers key
          (⟨key, value, m.admitted⟩ :: (m.members key).dropLast)
        disposed := ((m.members key).getLast?.map Resident.value).toList
        events := [.evicted (m.setOf key)] } := if_pos hfull

/-- A set with room keeps all its members. -/
theorem takeIn_of_room (hroom : (m.members key).length ≠ m.setSize) :
    m.takeIn key value =
      { state := { m with admitted := m.admitted + 1 }.withMembers key
          (⟨key, value, m.admitted⟩ :: m.members key) } := if_neg hroom

/-- What is let go for a new member. -/
theorem disposed_takeIn :
    (m.takeIn key value).disposed =
      if (m.members key).length = m.setSize then ((m.members key).getLast?.map Resident.value).toList
      else [] := by
  by_cases hfull : (m.members key).length = m.setSize
  · rw [takeIn_of_full hfull, if_pos hfull]
  · rw [takeIn_of_room hfull, if_neg hfull]

/-- A present key keeps its place and its age, and its former value is let go. -/
theorem insert_of_present {old : ν} (hget : m.get? key = some old) :
    m.insert key value =
      { state := { m with puts := m.puts + 1 }.withMembers key
          ((m.members key).map (Resident.replace key value))
        disposed := [old] } := by
  have hputs : get? { m with puts := m.puts + 1 } key = some old := hget
  simp only [insert, hputs]
  rfl

theorem insert_of_absent (hget : m.get? key = none) :
    m.insert key value = { m with puts := m.puts + 1 }.takeIn key value := by
  have hputs : get? { m with puts := m.puts + 1 } key = none := hget
  simp only [insert, hputs]

/-- A key is absent if no member of its set has it. -/
theorem get?_eq_none_iff : m.get? key = none ↔ ∀ r ∈ m.members key, r.key ≠ key := by
  simp [get?]

/-- A new value under a present key keeps the sets in order. -/
theorem Valid.replace (h : m.Valid) (key : κ) (value : ν) :
    (m.withMembers key ((m.members key).map (Resident.replace key value))).Valid := by
  refine h.withMembers ?_ ?_ ?_ ?_ ?_
  · -- length, home, distinct keys, order of age and age, in turn
    rw [List.length_map]
    exact h.fits _
  · rintro _ hmem
    obtain ⟨r, hr, rfl⟩ := List.mem_map.mp hmem
    rw [Resident.replace_key]
    exact h.home_members hr
  · have hkeys : Resident.key ∘ Resident.replace key value = Resident.key :=
      funext fun r => r.replace_key key value
    rw [List.map_map, hkeys]
    exact h.distinct _
  · exact (h.newestFirst _).map _ fun r older hlt => by simpa using hlt
  · rintro _ hmem
    obtain ⟨r, hr, rfl⟩ := List.mem_map.mp hmem
    rw [Resident.replace_born]
    exact h.born_lt _ r hr

/-- A new entry in front of some of the entries of its set. -/
theorem Valid.newest (h : m.Valid) (habsent : m.get? key = none) (hsub : l.Sublist (m.members key))
    (hlength : l.length < m.setSize) (value : ν) :
    ({ m with admitted := m.admitted + 1 }.withMembers key (⟨key, value, m.admitted⟩ :: l)).Valid := by
  have hm : Valid { m with admitted := m.admitted + 1 } :=
    { h with born_lt := fun j r hr => Nat.lt_succ_of_lt (h.born_lt j r hr) }
  have hlt : ∀ r ∈ l, r.born < m.admitted := fun r hr => h.born_lt _ r (hsub.subset hr)
  -- the newest member is older than none of the others
  refine hm.withMembers hlength ?_ ?_ ?_ ?_
  · rintro r (_ | ⟨_, hr⟩)
    · rfl
    · exact h.home_members (hsub.subset hr)
  · have hkey : key ∉ l.map Resident.key := by
      intro hmem
      obtain ⟨r, hr, hkey⟩ := List.mem_map.mp hmem
      exact get?_eq_none_iff.mp habsent r (hsub.subset hr) hkey
    exact List.nodup_cons.mpr ⟨hkey, (h.distinct _).sublist (hsub.map _)⟩
  · exact List.pairwise_cons.mpr ⟨hlt, (h.newestFirst _).sublist hsub⟩
  · rintro r (_ | ⟨_, hr⟩)
    · exact Nat.lt_succ_self _
    · exact Nat.lt_succ_of_lt (hlt r hr)

/-- Taking a member in keeps the sets in order. -/
theorem Valid.takeIn (h : m.Valid) (habsent : m.get? key = none) (value : ν) :
    (m.takeIn key value).state.Valid := by
  have hfits : (m.members key).length ≤ m.setSize := h.fits _
  have hpos := h.setSize_pos
  by_cases hfull : (m.members key).length = m.setSize
  · rw [takeIn_of_full hfull]
    refine h.newest habsent (List.dropLast_sublist _) ?_ value
    rw [List.length_dropLast]
    omega
  · rw [takeIn_of_room hfull]
    exact h.newest habsent (List.Sublist.refl _) (by omega) value

/-- Removing a member keeps the sets in order. -/
theorem Valid.erase (h : m.Valid) (key : κ) : (m.erase key).2.Valid := by
  have hsub : ((m.members key).eraseP (·.key = key)).Sublist (m.members key) := List.eraseP_sublist
  exact h.withMembers (hsub.length_le.trans (h.fits _)) (fun r hr => h.home_members (hsub.subset hr))
    ((h.distinct _).sublist (hsub.map _)) ((h.newestFirst _).sublist hsub)
    fun r hr => h.born_lt _ r (hsub.subset hr)

theorem Valid.clear (h : m.Valid) : m.clear.state.Valid where
  numSets_pos := h.numSets_pos
  setSize_pos := h.setSize_pos
  fits _ := Nat.zero_le _
  home := by simp [FifoSets.clear]
  distinct := by simp [FifoSets.clear]
  newestFirst := by simp [FifoSets.clear]
  born_lt := by simp [FifoSets.clear]

/-- **What a full set lets go is the entry that has been in it longest.** -/
theorem Valid.exists_oldest (h : m.Valid) (hfull : (m.members key).length = m.setSize) :
    ∃ oldest ∈ m.members key, (∀ r ∈ m.members key, r ≠ oldest → oldest.born < r.born) ∧
      ∀ value, (m.takeIn key value).disposed = [oldest.value] := by
  have hne : m.members key ≠ [] := by
    intro hnil
    have hpos := h.setSize_pos
    rw [hnil, List.length_nil] at hfull
    omega
  refine ⟨(m.members key).getLast hne, List.getLast_mem hne, ?_, ?_⟩
  · intro r hr hother
    have hsplit := List.dropLast_concat_getLast hne
    have hpair := h.newestFirst (m.setOf key)
    change (m.members key).Pairwise _ at hpair
    rw [← hsplit] at hpair hr
    -- all members but the last one come before it, and are younger
    rcases List.mem_append.mp hr with hr | hr
    · exact (List.pairwise_append.mp hpair).2.2 r hr _ (List.mem_singleton_self _)
    · exact absurd (List.mem_singleton.mp hr) hother
  · intro value
    simp [takeIn_of_full hfull, List.getLast?_eq_getLast_of_ne_nil hne]

end FifoSets

end LinearProbing
