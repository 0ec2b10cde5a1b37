import LinearProbing.HandleStore
import Mathlib.Data.List.Nodup

/-!
# LinearProbing.Proofs.HandleStore

**What is relied on of a store of values under handles** (`LawfulHandleStore`): it is a finite map, and the
handle of a value that is added is not one under which another value is found at the time. Handles may be
used again after that. A `SlotStore` is such a store.
-/

namespace LinearProbing

/-- A store is a finite map that chooses its handles among those not in use. -/
class LawfulHandleStore (ρ : Type → Type) (θ : outParam Type) [HandleStore ρ θ] : Prop where
  get?_empty {α : Type} (handle : θ) : HandleStore.get? (HandleStore.empty : ρ α) handle = none
  /-- The handle of a new value is not in use. -/
  get?_fresh {α : Type} (s : ρ α) (a : α) : HandleStore.get? s (HandleStore.insert s a).1 = none
  get?_insert_self {α : Type} (s : ρ α) (a : α) :
    HandleStore.get? (HandleStore.insert s a).2 (HandleStore.insert s a).1 = some a
  get?_insert_of_ne {α : Type} {s : ρ α} {a : α} {handle : θ} :
    handle ≠ (HandleStore.insert s a).1 →
      HandleStore.get? (HandleStore.insert s a).2 handle = HandleStore.get? s handle
  get?_set_self {α : Type} {s : ρ α} {a b : α} {handle : θ} : HandleStore.get? s handle = some b →
    HandleStore.get? (HandleStore.set s handle a) handle = some a
  get?_set_of_ne {α : Type} {s : ρ α} {a : α} {handle other : θ} : other ≠ handle →
    HandleStore.get? (HandleStore.set s handle a) other = HandleStore.get? s other
  get?_erase_self {α : Type} (s : ρ α) (handle : θ) :
    HandleStore.get? (HandleStore.erase s handle) handle = none
  get?_erase_of_ne {α : Type} {s : ρ α} {handle other : θ} : other ≠ handle →
    HandleStore.get? (HandleStore.erase s handle) other = HandleStore.get? s other
  get?_clear {α : Type} (s : ρ α) (handle : θ) : HandleStore.get? (HandleStore.clear s) handle = none
  mem_entries {α : Type} {s : ρ α} {handle : θ} {a : α} :
    (handle, a) ∈ HandleStore.entries s ↔ HandleStore.get? s handle = some a
  nodup_entries {α : Type} (s : ρ α) : ((HandleStore.entries s).map Prod.fst).Nodup
  size_eq {α : Type} (s : ρ α) : HandleStore.size s = (HandleStore.entries s).length

/-- The entries of a store are those of any list without repetition under whose handles the same is
found. -/
theorem HandleStore.entries_perm {ρ : Type → Type} {θ α : Type} [HandleStore ρ θ]
    [LawfulHandleStore ρ θ] {s : ρ α} {l : List (θ × α)} (hnodup : (l.map Prod.fst).Nodup)
    (hmem : ∀ handle a, (handle, a) ∈ l ↔ HandleStore.get? s handle = some a) :
    (HandleStore.entries s).Perm l := by
  have hentries : (HandleStore.entries s).Nodup := (LawfulHandleStore.nodup_entries s).of_map _
  refine (List.perm_ext_iff_of_nodup hentries (hnodup.of_map _)).mpr fun ⟨handle, a⟩ => ?_
  rw [LawfulHandleStore.mem_entries, hmem]

namespace HandleStore

variable {ρ : Type → Type} {θ α : Type} [HandleStore ρ θ] [LawfulHandleStore ρ θ]
variable {s : ρ α} {handle : θ} {a b : α}

open LawfulHandleStore (mem_entries nodup_entries)

/-- A value that is added joins the others. -/
theorem entries_insert_perm (s : ρ α) (a : α) :
    (entries (insert s a).2).Perm (((insert s a).1, a) :: entries s) := by
  have hfresh : (insert s a).1 ∉ (entries s).map Prod.fst := by
    intro hmem
    obtain ⟨⟨_, b⟩, hb, rfl⟩ := List.mem_map.mp hmem
    have hnone := LawfulHandleStore.get?_fresh s a
    exact absurd (hnone.symm.trans (mem_entries.mp hb)) nofun
  refine entries_perm (List.nodup_cons.mpr ⟨hfresh, nodup_entries s⟩) fun handle b => ?_
  by_cases heq : handle = (insert s a).1
  · subst heq
    have hother : ((insert s a).1, b) ∉ entries s := fun hmem => hfresh (List.mem_map_of_mem hmem)
    rw [LawfulHandleStore.get?_insert_self, List.mem_cons, or_iff_left hother]
    simp [eq_comm]
  · rw [LawfulHandleStore.get?_insert_of_ne heq, List.mem_cons, or_iff_right (by simp [heq]),
      mem_entries]

/-- The value under a handle apart from the others. -/
theorem entries_perm_cons (hget : get? s handle = some a) :
    (entries s).Perm ((handle, a) :: entries (erase s handle)) := by
  have hgone : handle ∉ (entries (erase s handle)).map Prod.fst := by
    intro hmem
    obtain ⟨⟨_, b⟩, hb, rfl⟩ := List.mem_map.mp hmem
    exact absurd ((LawfulHandleStore.get?_erase_self ..).symm.trans (mem_entries.mp hb)) nofun
  refine entries_perm (List.nodup_cons.mpr ⟨hgone, nodup_entries _⟩) fun other b => ?_
  by_cases heq : other = handle
  · subst heq
    have hother : (other, b) ∉ entries (erase s other) := fun hmem => hgone (List.mem_map_of_mem hmem)
    rw [hget, List.mem_cons, or_iff_left hother]
    simp [eq_comm]
  · rw [List.mem_cons, or_iff_right (by simp [heq]), mem_entries,
      LawfulHandleStore.get?_erase_of_ne heq]

/-- Overwriting a value leaves the others. -/
theorem entries_set_perm (hget : get? s handle = some b) (a : α) :
    (entries (set s handle a)).Perm ((handle, a) :: entries (erase s handle)) := by
  refine (entries_perm_cons (LawfulHandleStore.get?_set_self hget)).trans (.cons _ ?_)
  refine entries_perm (nodup_entries _) fun other c => ?_
  rw [mem_entries]
  by_cases heq : other = handle
  · subst heq
    rw [LawfulHandleStore.get?_erase_self, LawfulHandleStore.get?_erase_self]
  · rw [LawfulHandleStore.get?_erase_of_ne heq, LawfulHandleStore.get?_erase_of_ne heq,
      LawfulHandleStore.get?_set_of_ne heq]

theorem entries_clear (s : ρ α) : entries (clear s) = [] := by
  refine List.eq_nil_iff_forall_not_mem.mpr fun e he => ?_
  exact absurd ((LawfulHandleStore.get?_clear s e.1).symm.trans (mem_entries.mp he)) nofun

end HandleStore

/-! ### Slots that are used again -/

namespace SlotStore

variable {α : Type} {s : SlotStore α} {handle other : SlotHandle} {a b : α}

theorem get?_eq_some_iff : s.get? handle = some a ↔
    s.slots[handle.index]? = some { version := handle.version, value? := some a } := by
  unfold get?
  cases hslot : s.slots[handle.index]? with
  | none => simp
  | some slot =>
      obtain ⟨version, value?⟩ := slot
      simp only [Option.bind_some, Option.some.injEq, VersionedSlot.mk.injEq]
      split
      · next heq => simp [heq]
      · next hne => simp [hne]

theorem index_lt (h : s.get? handle = some a) : handle.index < s.slots.size :=
  (Array.getElem?_eq_some_iff.mp (get?_eq_some_iff.mp h)).1

/-- What is found after one slot is overwritten. -/
theorem get?_write {free : List Nat} {i : Nat} (hi : i < s.slots.size) (slot : VersionedSlot α)
    (other : SlotHandle) :
    get? { slots := s.slots.setIfInBounds i slot, free } other =
      if i = other.index then if slot.version = other.version then slot.value? else none
      else s.get? other := by
  unfold get?
  rw [Array.getElem?_setIfInBounds]
  split
  · rw [Option.bind_some]
  · rfl

theorem vacancy?_eq_some (h : s.vacancy? = some handle) :
    s.slots[handle.index]? = some { version := handle.version, value? := none } := by
  unfold vacancy? at h
  obtain ⟨index, -, hindex⟩ := Option.bind_eq_some_iff.mp h
  obtain ⟨slot, hslot, hvacant⟩ := Option.bind_eq_some_iff.mp hindex
  split at hvacant
  · next hnone =>
    obtain rfl := Option.some.inj hvacant
    rw [hslot, ← Option.isNone_iff_eq_none.mp hnone]
  · cases hvacant

theorem get?_fresh (s : SlotStore α) (a : α) : s.get? (s.insert a).1 = none := by
  unfold insert
  split
  · next handle hvacancy =>
    simp [get?, vacancy?_eq_some hvacancy]
  · simp [get?]

theorem get?_insert (s : SlotStore α) (a : α) (handle : SlotHandle) :
    (s.insert a).2.get? handle = if handle = (s.insert a).1 then some a else s.get? handle := by
  unfold insert
  split
  · next place hvacancy =>
    have hslot := vacancy?_eq_some hvacancy
    rw [get?_write (Array.getElem?_eq_some_iff.mp hslot).1]
    by_cases hindex : place.index = handle.index
    · rw [if_pos hindex]
      by_cases hversion : place.version = handle.version
      · have heq : handle = place := by
          rw [show handle = ⟨handle.index, handle.version⟩ from rfl, ← hindex, ← hversion]
        rw [if_pos hversion, if_pos heq]
      · rw [if_neg hversion, if_neg fun heq => hversion (congrArg SlotHandle.version heq.symm)]
        simp [get?, ← hindex, hslot]
    · rw [if_neg hindex, if_neg fun heq => hindex (congrArg SlotHandle.index heq.symm)]
  · unfold get?
    rw [Array.getElem?_push]
    by_cases hindex : handle.index = s.slots.size
    · rw [if_pos hindex, Option.bind_some]
      by_cases hversion : 0 = handle.version
      · have heq : handle = ⟨s.slots.size, 0⟩ := by rw [← hindex, hversion]
        rw [if_pos hversion, if_pos heq]
      · rw [if_neg hversion, if_neg fun heq => hversion (congrArg SlotHandle.version heq.symm)]
        simp [hindex]
    · rw [if_neg hindex, if_neg fun heq => hindex (congrArg SlotHandle.index heq)]

theorem get?_set_self (h : s.get? handle = some b) : (s.set handle a).get? handle = some a := by
  unfold set
  rw [h]
  dsimp only
  rw [get?_write (index_lt h), if_pos rfl, if_pos rfl]

/-- A slot that is overwritten is found under no other handle, before and after. -/
theorem get?_write_of_ne {free : List Nat} (h : s.get? handle = some b) (hne : other ≠ handle)
    {slot : VersionedSlot α} (hslot : slot.version = handle.version ∨ slot.value? = none) :
    get? { slots := s.slots.setIfInBounds handle.index slot, free } other = s.get? other := by
  rw [get?_write (index_lt h)]
  split
  · next hindex =>
    have hversion : handle.version ≠ other.version := fun heq =>
      hne (by rw [show other = ⟨other.index, other.version⟩ from rfl, ← hindex, ← heq])
    have hbefore : s.get? other = none := by
      simp [get?, ← hindex, get?_eq_some_iff.mp h, hversion]
    rw [hbefore]
    rcases hslot with heq | hnone
    · rw [if_neg (heq ▸ hversion)]
    · rw [hnone, ite_self]
  · rfl

theorem get?_set_of_ne (hne : other ≠ handle) : (s.set handle a).get? other = s.get? other := by
  unfold set
  split
  · rfl
  · next b h => exact get?_write_of_ne h hne (Or.inl rfl)

theorem get?_erase_self (s : SlotStore α) (handle : SlotHandle) :
    (s.erase handle).get? handle = none := by
  unfold erase
  split
  · next h => exact h
  · next b h => rw [get?_write (index_lt h), if_pos rfl, ite_self]

theorem get?_erase_of_ne (hne : other ≠ handle) : (s.erase handle).get? other = s.get? other := by
  unfold erase
  split
  · rfl
  · next b h => exact get?_write_of_ne h hne (Or.inr rfl)

theorem mem_entries : (handle, a) ∈ s.entries ↔ s.get? handle = some a := by
  rw [get?_eq_some_iff, entries, List.mem_filterMap]
  constructor
  · rintro ⟨⟨⟨version, value?⟩, index⟩, hmem, heq⟩
    obtain ⟨value, hvalue, hpair⟩ := Option.map_eq_some_iff.mp heq
    obtain ⟨rfl, rfl⟩ := Prod.mk.inj hpair
    dsimp only at hvalue
    rw [List.mem_zipIdx_iff_getElem?, hvalue] at hmem
    simpa using hmem
  · intro hslot
    refine ⟨(⟨handle.version, some a⟩, handle.index), ?_, rfl⟩
    rw [List.mem_zipIdx_iff_getElem?]
    simpa using hslot

theorem nodup_entries (s : SlotStore α) : (s.entries.map Prod.fst).Nodup := by
  have hplaces : (s.slots.toList.zipIdx.map Prod.snd).Nodup := by
    rw [List.zipIdx_map_snd]
    exact List.nodup_range'
  rw [List.Nodup, List.pairwise_map] at hplaces ⊢
  refine hplaces.filterMap _ ?_
  intro x y hne a ha b hb heq
  obtain ⟨v, -, rfl⟩ := Option.map_eq_some_iff.mp ha
  obtain ⟨w, -, rfl⟩ := Option.map_eq_some_iff.mp hb
  exact hne (congrArg SlotHandle.index heq)

theorem get?_foldl_erase (l : List (SlotHandle × α)) (s : SlotStore α)
    (h : s.get? handle = none ∨ handle ∈ l.map Prod.fst) :
    (l.foldl (fun s e => s.erase e.1) s).get? handle = none := by
  induction l generalizing s with
  | nil => exact h.resolve_right List.not_mem_nil
  | cons e rest ih =>
      refine ih (s.erase e.1) ?_
      rcases eq_or_ne handle e.1 with rfl | hne
      · exact Or.inl (get?_erase_self ..)
      · rw [get?_erase_of_ne hne]
        exact h.imp_right fun hmem => (List.mem_cons.mp hmem).resolve_left hne

theorem get?_clear (s : SlotStore α) (handle : SlotHandle) : s.clear.get? handle = none := by
  refine get?_foldl_erase _ _ ?_
  cases h : s.get? handle with
  | none => exact Or.inl rfl
  | some a => exact Or.inr (List.mem_map_of_mem (mem_entries.mpr h))

end SlotStore

instance : LawfulHandleStore SlotStore SlotHandle where
  get?_empty _ := rfl
  get?_fresh := SlotStore.get?_fresh
  get?_insert_self s a := (SlotStore.get?_insert s a _).trans (if_pos rfl)
  get?_insert_of_ne hne := (SlotStore.get?_insert _ _ _).trans (if_neg hne)
  get?_set_self := SlotStore.get?_set_self
  get?_set_of_ne := SlotStore.get?_set_of_ne
  get?_erase_self := SlotStore.get?_erase_self
  get?_erase_of_ne := SlotStore.get?_erase_of_ne
  get?_clear := SlotStore.get?_clear
  mem_entries := SlotStore.mem_entries
  nodup_entries := SlotStore.nodup_entries
  size_eq _ := rfl

end LinearProbing
