import LinearProbing.Proofs.Capacity.Needed
import LinearProbing.Proofs.Table
import LinearProbing.Proofs.FiniteMap

/-!
# LinearProbing.Proofs.Represents

**What a table stands for.** `Table.Represents` says that a table is usable and that its entries are those
of a list, in any order. Containers are compared with finite maps and sets through it: a search finds out
how the list splits at a key (`Represents.sought`), and each change of the table is one change of the list.
-/

namespace LinearProbing.Table

open EntryLayout (Lawful Located)

variable {σ κ ν : Type} [BEq κ]
variable {E : EntryLayout σ κ ν} {hash : κ → UInt64} {storable : κ → ν → Prop} {within : Prop}
variable {t : Table σ} {i : Nat} {key k : κ} {value v : ν} {e : κ × ν} {l rest : List (κ × ν)}

/-- A usable table with the entries of a list. -/
structure Represents (E : EntryLayout σ κ ν) (hash : κ → UInt64) (within : Prop) (t : Table σ)
    (l : List (κ × ν)) : Prop extends Usable E hash within t where
  entries : (t.entries E).Perm l

/-- A table that holds one entry more than its threshold allows, or more, and cannot grow. -/
structure Overfull (E : EntryLayout σ κ ν) (hash : κ → UInt64) (within : Prop) (t : Table σ) : Prop
    extends WellFormed E hash t where
  threshold_lt : t.sizing.threshold < t.len
  /-- There is one too many, if there were none before. -/
  len_eq_succ : within → t.len = t.sizing.threshold + 1
  /-- There is no size to which the table could grow. -/
  grownFor?_eq_none : t.sizing.grownFor? t.len = none

theorem Represents.perm {l' : List (κ × ν)} (h : t.Represents E hash within l) (hl : l.Perm l') :
    t.Represents E hash within l' :=
  ⟨h.toUsable, h.entries.trans hl⟩

theorem Represents.len_eq_length (h : t.Represents E hash within l) : t.len = l.length :=
  h.len_eq.trans h.entries.length_eq

theorem Represents.congr {u : Table σ} (h : t.Represents E hash within l)
    (hsizing : u.sizing = t.sizing) (hslots : u.slots = t.slots) (hlen : u.len = t.len) :
    u.Represents E hash within l :=
  ⟨h.toUsable.congr hsizing hslots hlen, by rw [entries_eq, hslots]; exact h.entries⟩

theorem represents_ofSizing (hE : E.Lawful hash storable) {sizing : Sizing} (hs : sizing.Valid)
    (mode : IterationMode) : (ofSizing E sizing mode).Represents E hash within [] :=
  ⟨(sound_ofSizing hE hs mode).usable, by rw [entries_ofSizing hE]⟩

/-- A table that holds too many entries still stands for them, as long as some slot is vacant. -/
theorem Overfull.represents (h : t.Overfull E hash within) (hlt : t.len < t.slots.size) :
    t.Represents E hash False (t.entries E) :=
  ⟨⟨h.toWellFormed, hlt, nofun⟩, List.Perm.refl _⟩

/-- What is left of a table beside one of its entries. -/
theorem Represents.entries_takeAt (h : t.Represents E hash within l) (hE : E.Lawful hash storable)
    (he : t.entryAt? E i = some e) (hl : l.Perm (e :: rest)) :
    ((t.takeAt E i).entries E).Perm rest :=
  ((hE.entries_vacate he).symm.trans (h.entries.trans hl)).cons_inv

/-- Every entry of a table splits the list. -/
theorem Represents.exists_split (h : t.Represents E hash within l) (hE : E.Lawful hash storable)
    (he : t.entryAt? E i = some e) : l.Perm (e :: (t.takeAt E i).entries E) :=
  h.entries.symm.trans (hE.entries_vacate he)

/-! ### Searching -/

theorem find?_of_found {h : UInt64} (hlocate : t.locate E h key = .found i) :
    t.find? E h key = some i := by
  rw [find?, hlocate]

theorem locate_of_find? {h : UInt64} (hfind : t.find? E h key = some i) : t.locate E h key = .found i := by
  rw [find?] at hfind
  split at hfind
  · next hlocate =>
    cases hfind
    exact hlocate
  · cases hfind
  · cases hfind

theorem find?_of_vacant {h : UInt64} (hlocate : t.locate E h key = .vacant i) :
    t.find? E h key = none := by
  rw [find?, hlocate]

inductive Sought (E : EntryLayout σ κ ν) (hash : κ → UInt64) (t : Table σ) (l : List (κ × ν))
    (key : κ) : Probe → Prop
  /-- The entry under the key, and that no other one has it. -/
  | found {i : Nat} {k : κ} {v : ν} {rest : List (κ × ν)} (entry : t.entryAt? E i = some (k, v))
      (present : FiniteMap.Present ⟨l⟩ key k v rest) : Sought E hash t l key (.found i)
  /-- The vacant slot that the key would take, and that no entry has it. -/
  | vacant {i : Nat} (located : Located E hash t.slots key (.vacant i))
      (absent : FiniteMap.Absent ⟨l⟩ key) : Sought E hash t l key (.vacant i)

variable [EquivBEq κ]

theorem Represents.distinct (h : t.Represents E hash within l) :
    l.Pairwise fun a b => (a.1 == b.1) = false :=
  (EntryLayout.distinct_perm h.entries).mp h.arranged.distinct

/-- **The search for a key** ends, and splits the list. -/
theorem Represents.sought (h : t.Represents E hash within l) (hE : E.Lawful hash storable) (key : κ) :
    Sought E hash t l key (t.locate E (hash key) key) := by
  have hloc := h.toWellFormed.located hE h.len_lt key
  generalize t.locate E (hash key) key = outcome at hloc
  cases hloc with
  | found entry same =>
      have hsplit := h.exists_split hE entry
      refine .found entry ⟨hsplit, same, fun e he => ?_⟩
      have hdistinct := (EntryLayout.distinct_perm hsplit).mp h.distinct
      have := (List.pairwise_cons.mp hdistinct).1 e he
      rwa [← BEq.congr_right same, BEq.comm]
  | vacant searched absent =>
      exact .vacant (.vacant searched absent) fun e he => absent e (h.entries.mem_iff.mpr he)

/-! ### Changing -/

theorem Represents.setAt (h : t.Represents E hash within l) (hE : E.Lawful hash storable)
    (he : t.entryAt? E i = some (k, v)) (hl : l.Perm ((k, v) :: rest)) (hkey : (k == key) = true)
    (hs : storable key value) :
    (t.setAt i (E.occupy (hash key) key value)).Represents E hash within ((key, value) :: rest) :=
  ⟨h.toUsable.setAt hE he hkey hs,
    (h.toWellFormed.setAt hE he hkey hs).2.trans ((h.entries_takeAt hE he hl).cons _)⟩

theorem Represents.eraseAt (h : t.Represents E hash within l) (hE : E.Lawful hash storable)
    (he : t.entryAt? E i = some e) (hl : l.Perm (e :: rest)) :
    (t.eraseAt E i).Represents E hash within rest := by
  have hperm := (h.toWellFormed.eraseAt hE h.len_lt he).2
  exact ⟨h.toUsable.eraseAt hE he, (hperm.symm.trans (h.entries.trans hl)).cons_inv⟩

/-- **Inserting an absent key.** Either the entry joins the others and the result is its slot, or the table
cannot grow. -/
theorem Represents.insertAt (h : t.Represents E hash within l) (hE : E.Lawful hash storable)
    (hloc : Located E hash t.slots key (.vacant i)) (hs : storable key value) :
    (∃ j, (t.insertAt E i (E.occupy (hash key) key value)).result = .ok j ∧
        (t.insertAt E i (E.occupy (hash key) key value)).state.entryAt? E j = some (key, value) ∧
        (t.insertAt E i (E.occupy (hash key) key value)).state.Represents E hash within
          ((key, value) :: l)) ∨
      ((t.insertAt E i (E.occupy (hash key) key value)).result = .error .capacityOverflow ∧
        (t.insertAt E i (E.occupy (hash key) key value)).state.Overfull E hash within) := by
  obtain ⟨hwell, hentries, hlen, hok | hoverflow⟩ := h.toWellFormed.insertAt hE hloc hs
  · obtain ⟨j, hresult, hentry, hle⟩ := hok
    exact Or.inl ⟨j, hresult, hentry, hwell.usable hle, hentries.trans (h.entries.cons _)⟩
  · obtain ⟨hresult, hsizing, hlt, hnone⟩ := hoverflow
    refine Or.inr ⟨hresult, hwell, ?_, fun hw => ?_, ?_⟩
    · rwa [hlen, hsizing]
    · -- the table was within its threshold, so there is just one entry too many
      have := h.len_le hw
      rw [hlen, hsizing]
      omega
    · rwa [hlen, hsizing]

omit [EquivBEq κ] in
theorem Represents.clearWith (h : t.Represents E hash within l) (blank : σ → σ)
    (hblank : ∀ s, E.entryIn? (blank s) = none) :
    (t.clearWith blank).Represents E hash within [] := by
  obtain ⟨hsound, hentries⟩ := h.toWellFormed.clearWith blank hblank
  exact ⟨hsound.usable, by rw [hentries]⟩

/-- **Compacting.** Either the entries are the same as before, or there are too many for every table: then the
table is as it was. -/
theorem Represents.compact (h : t.Represents E hash within l) (hE : E.Lawful hash storable) :
    ((t.compact E).result = .ok () ∧ (t.compact E).state.Represents E hash within l) ∨
      ((t.compact E).result = .error .capacityOverflow ∧ (t.compact E).state.Overfull E hash within) := by
  obtain ⟨-, hperm, -⟩ := h.toWellFormed.compact hE
  have hstate : (t.compact E).state.Represents E hash within l :=
    ⟨h.toUsable.compact hE, hperm.trans h.entries⟩
  have hcompaction := t.compaction E
  generalize t.compact E = c at hcompaction hstate ⊢
  cases hcompaction with
  | moves | stays => exact Or.inl ⟨rfl, hstate⟩
  | fails found =>
      obtain ⟨hlt, hnone⟩ := h.sizing.of_compactedFor?_eq_none found
      refine Or.inr ⟨rfl, h.toWellFormed, hlt, fun hw => ?_, hnone⟩
      -- within the rules there never are so many entries
      exact absurd (h.len_le hw) (Nat.not_le_of_lt hlt)

end LinearProbing.Table
