import LinearProbing.Proofs.OccupiedSlots
import LinearProbing.Proofs.Rehashing

/-!
# LinearProbing.Proofs.Iterators

**Iterators are exact.** An iterator does not look for the end of the array: it stops when it has produced as
many entries as the table counts. In every container that is reached this is right, as the count is that of the
occupied slots: the iterator produces each entry once, in slot order, then nothing any more, and it knows at
every point how many are left (`Iterating.Exact`). What the invariant of one call is, and that a call keeps it,
is all that has to be said of an iterator (`Iterating.Exact.of_step`).

In a set of words, minus one is not in the table. Whether it is still to come is a flag of the iterator.
-/

namespace LinearProbing

/-! ### What is said of iterators -/

/-- An iterator as its user sees it. -/
structure Iterating (ι ε : Type) where
  /-- The next element, if there is one. -/
  next : ι → Option ε × ι
  /-- How many elements are left. -/
  remaining : ι → Nat

namespace Iterating

variable {ι ε δ : Type} (I : Iterating ι ε)

/-- The iterator after so many calls of `next`, whatever they give. -/
def after : (calls : Nat) → ι → ι
  | 0, it => it
  | calls + 1, it => after calls (I.next it).2

/-- The bounds on how many elements are left: a lower one, and an upper one if there is one. -/
def sizeHint (it : ι) : Nat × Option Nat := (I.remaining it, some (I.remaining it))

/-- The iterator with its elements read through a function. -/
def mapped (f : ε → δ) : Iterating ι δ where
  next it := ((I.next it).1.map f, (I.next it).2)
  remaining := I.remaining

/-- **The iterator produces a list**, one element at a call. -/
structure Exact (it : ι) (l : List ε) : Prop where
  /-- The element at each place of the list comes at that call; behind the list there is none. -/
  next_eq : ∀ calls, (I.next (I.after calls it)).1 = l[calls]?
  /-- After so many calls, the bounds are the number of elements that are left. -/
  sizeHint_eq : ∀ calls, I.sizeHint (I.after calls it) = (l.length - calls, some (l.length - calls))
  /-- Once there is none, there is none at any later call. -/
  fused : ∀ calls later, calls ≤ later → (I.next (I.after calls it)).1 = none →
    (I.next (I.after later it)).1 = none

variable {I} {it : ι} {l : List ε}

/-- **One call is enough**: if it gives the first of the elements that are ahead and leaves the others, and if
they are counted, then the iterator produces them. -/
theorem Exact.of_step (Ahead : ι → List ε → Prop)
    (hcount : ∀ {it l}, Ahead it l → I.remaining it = l.length)
    (hstep : ∀ {it l}, Ahead it l → (I.next it).1 = l.head? ∧ Ahead (I.next it).2 l.tail)
    (h : Ahead it l) : I.Exact it l := by
  -- after some calls the elements ahead are those that the calls have not taken
  have hafter : ∀ calls, Ahead (I.after calls it) (l.drop calls) := by
    intro calls
    induction calls generalizing it l with
    | zero => exact h
    | succ calls ih =>
        have hnext := ih (hstep h).2
        rwa [List.drop_tail] at hnext
  have hnext : ∀ calls, (I.next (I.after calls it)).1 = l[calls]? := fun calls => by
    rw [(hstep (hafter calls)).1, List.head?_drop]
  refine ⟨hnext, fun calls => ?_, fun calls later hle hnone => ?_⟩
  · rw [sizeHint, hcount (hafter calls), List.length_drop]
  · rw [hnext, List.getElem?_eq_none_iff] at hnone ⊢
    exact hnone.trans hle

theorem after_mapped (f : ε → δ) (calls : Nat) (it : ι) :
    (I.mapped f).after calls it = I.after calls it := by
  induction calls generalizing it with
  | zero => rfl
  | succ calls ih => exact ih (I.next it).2

/-- What is read through a function comes in the same order. -/
theorem Exact.mapped (h : I.Exact it l) (f : ε → δ) : (I.mapped f).Exact it (l.map f) where
  next_eq calls := by
    rw [after_mapped, List.getElem?_map, ← h.next_eq]
    rfl
  sizeHint_eq calls := by
    rw [after_mapped, List.length_map]
    exact h.sizeHint_eq calls
  fused calls later hle hnone := by
    rw [after_mapped] at hnone ⊢
    exact congrArg (Option.map f) (h.fused calls later hle (Option.map_eq_none_iff.mp hnone))

end Iterating

/-! ### Tables -/

namespace Table

variable {σ κ ν : Type} {E : EntryLayout σ κ ν} {hash : κ → UInt64} {storable : κ → ν → Prop}
variable {t : Table σ} {it : Iter σ} {l : List (κ × ν)}

namespace Iter

/-- How an iterator over a table looks to its user. -/
def iterating (E : EntryLayout σ κ ν) : Iterating (Iter σ) (κ × ν) := ⟨next E, remaining⟩

/-- The entries in the slots ahead are counted. -/
structure Ahead (E : EntryLayout σ κ ν) (it : Iter σ) (l : List (κ × ν)) : Prop where
  entries : it.ahead.filterMap E.entryIn? = l
  remaining_eq : it.remaining = l.length

/-- The first entry is found, and the others are in the slots behind it. -/
theorem firstEntry_spec (slots : List σ) :
    (firstEntry E slots).1 = (slots.filterMap E.entryIn?).head? ∧
      (firstEntry E slots).2.filterMap E.entryIn? = (slots.filterMap E.entryIn?).tail := by
  induction slots with
  | nil => exact ⟨rfl, rfl⟩
  | cons slot rest ih =>
      rw [firstEntry]
      cases hentry : E.entryIn? slot with
      | none => rwa [List.filterMap_cons_none hentry]
      | some e =>
          rw [List.filterMap_cons_some hentry]
          exact ⟨rfl, rfl⟩

theorem Ahead.next (h : it.Ahead E l) :
    (it.next E).1 = l.head? ∧ (it.next E).2.Ahead E l.tail := by
  obtain ⟨hfirst, hrest⟩ := firstEntry_spec (E := E) it.ahead
  rw [h.entries] at hfirst hrest
  rw [Iter.next]
  cases l with
  | nil =>
      have hzero : it.remaining = 0 := h.remaining_eq
      rw [if_pos hzero]
      exact ⟨rfl, h⟩
  | cons e rest =>
      -- an entry is counted as left, and the first occupied slot ahead is its own
      have hpos : it.remaining ≠ 0 := h.remaining_eq.trans_ne (Nat.succ_ne_zero _)
      rw [if_neg hpos]
      generalize firstEntry E it.ahead = found at hfirst hrest
      obtain ⟨e?, ahead⟩ := found
      obtain rfl : e? = some e := hfirst
      refine ⟨rfl, hrest, ?_⟩
      rw [h.remaining_eq]
      rfl

end Iter

/-- What an iterator over a table produces: `l` are the entries of the table in strictly increasing slot order,
and each is what the search for its key finds. -/
structure Enumerated [BEq κ] (E : EntryLayout σ κ ν) (hash : κ → UInt64) (t : Table σ)
    (l : List (κ × ν)) : Prop where
  exact : (Iter.iterating E).Exact t.iter l
  length_eq : l.length = t.len
  /-- Each occupied slot gives its entry, once. -/
  slotOrder : ∃ slots : List Nat, slots.Pairwise (· < ·) ∧ slots.toFinset = t.occupied E ∧
    slots.map (t.entryAt? E) = l.map some
  /-- No key comes twice. -/
  distinct : l.Pairwise fun e f => (e.1 == f.1) = false
  mem_iff : ∀ e, e ∈ l ↔ t.lookup? E (hash e.1) e.1 = some e

/-- The entries are those of the occupied slots, from the first to the last. -/
theorem map_entryAt?_occupied (t : Table σ) :
    ((List.range t.slots.size).filter fun i => (t.entryAt? E i).isSome).map (t.entryAt? E) =
      (t.entries E).map some := by
  have hentries : t.entries E = (List.range t.slots.size).filterMap (t.entryAt? E) := by
    rw [entries, ← Layout.map_slotAt_range (L := E.layout), List.filterMap_map]
    rfl
  rw [hentries, List.map_filterMap_some_eq_filter_map_isSome, List.filter_map]
  rfl

variable [BEq κ] [EquivBEq κ]

/-- **An iterator over a table is exact.** -/
theorem WellFormed.enumerated (h : t.WellFormed E hash) (hE : E.Lawful hash storable)
    (hroom : t.len < t.slots.size) : t.Enumerated E hash (t.entries E) where
  exact := Iterating.Exact.of_step (Iter.Ahead E) (fun h => h.remaining_eq) (fun h => h.next)
    ⟨rfl, h.len_eq⟩
  length_eq := h.len_eq.symm
  slotOrder := by
    refine ⟨_, List.pairwise_lt_range.filter _, ?_, map_entryAt?_occupied t⟩
    ext i
    simp [occupied]
  distinct := h.arranged.distinct
  mem_iff e := by
    rw [lookup?]
    constructor
    · intro he
      -- an entry of the table is found in its own slot, since no other entry has its key
      obtain ⟨i, -, hentry⟩ := EntryLayout.mem_entries_iff.mp he
      rw [h.find?_eq hE hroom hentry]
      exact hentry
    · intro hlookup
      obtain ⟨i, -, hentry⟩ := Option.bind_eq_some_iff.mp hlookup
      exact EntryLayout.mem_entries_iff.mpr ⟨i, hE.lt_size hentry, hentry⟩

end Table

/-! ### Sets of words -/

namespace WordSet

variable {α : Type} [SignedWord α]

/-- How an iterator over a set of words looks to its user. -/
def Iter.iterating : Iterating (Iter α) α := ⟨Iter.next, Iter.remaining⟩

/-- The members in the slots ahead, and minus one if it is pending. -/
def Iter.Ahead (it : Iter α) (l : List α) : Prop :=
  ∃ entries, it.inner.Ahead MemberSlot.layout entries ∧
    l = entries.map Prod.fst ++ if it.pending then [SignedWord.minusOne] else []

theorem Iter.Ahead.remaining_eq {it : Iter α} {l : List α} (h : it.Ahead l) : it.remaining = l.length := by
  obtain ⟨entries, hinner, rfl⟩ := h
  rw [Iter.remaining, hinner.remaining_eq, List.length_append, List.length_map]
  cases it.pending <;> rfl

theorem Iter.Ahead.next {it : Iter α} {l : List α} (h : it.Ahead l) :
    it.next.1 = l.head? ∧ it.next.2.Ahead l.tail := by
  obtain ⟨inner, pending⟩ := it
  obtain ⟨entries, hinner, rfl⟩ := h
  obtain ⟨hnext, hahead⟩ := hinner.next
  rw [Iter.next]
  dsimp only at hnext hahead ⊢
  generalize Table.Iter.next (MemberSlot.layout : EntryLayout α α Unit) inner = found at hnext hahead
  obtain ⟨e?, rest⟩ := found
  cases entries with
  | cons e entries =>
      obtain rfl : e? = some e := hnext
      exact ⟨rfl, entries, hahead, rfl⟩
  | nil =>
      obtain rfl : e? = none := hnext
      -- the table has nothing more: minus one comes if it is still to come
      cases pending with
      | true => exact ⟨rfl, [], hahead, rfl⟩
      | false => exact ⟨rfl, [], hahead, rfl⟩

/-- What an iterator over a set of words produces: the members in the table, and minus one behind all of them
exactly if it is a member. -/
structure Enumerated (s : WordSet α) : Prop where
  exact : Iter.iterating.Exact s.iter s.members
  length_eq : s.members.length = s.len
  inner : s.inner.table.Enumerated MemberSlot.layout SignedWord.spread
    (s.inner.table.entries MemberSlot.layout)
  members_eq : s.members = (s.inner.table.entries MemberSlot.layout).map Prod.fst ++
    if s.contains SignedWord.minusOne then [SignedWord.minusOne] else []
  minusOne_notMem : SignedWord.minusOne ∉ (s.inner.table.entries MemberSlot.layout).map Prod.fst
  mem_iff : ∀ x, x ∈ s.members ↔ s.contains x = true

/-- **An iterator over a set of words is exact.** -/
theorem Reachable.enumerated {s : WordSet α} (h : s.Reachable) : s.Enumerated := by
  have htable := h.represents.inner.table
  have hinner := htable.toWellFormed.enumerated (wordMember_lawful {}) htable.len_lt
  exact
    { exact := .of_step Iter.Ahead (fun h => h.remaining_eq) (fun h => h.next)
        ⟨_, ⟨rfl, htable.len_eq⟩, rfl⟩
      length_eq := h.represents.len_eq.symm
      inner := hinner
      members_eq := by
        rw [contains, if_pos rfl]
        rfl
      minusOne_notMem := minusOne_notMem_inner
      mem_iff := fun x => by rw [h.contains_eq, List.contains_iff_mem] }

end WordSet

/-! ### All of them -/

open Table.Iter in
/-- **Iterators are exact** in every container over a probing table that is reached. The keys and the values of
a map come in the order of its entries. -/
theorem enumerated_of_reachable :
    (∀ {κ ν : Type} [SignedWord κ] [SignedWord ν] {m : WordMap κ ν}, m.Reachable →
      m.table.Enumerated m.layout SignedWord.spread m.entries ∧
      ((iterating m.layout).mapped Prod.fst).Exact m.table.iter m.keys ∧
      ((iterating m.layout).mapped Prod.snd).Exact m.table.iter m.values) ∧
    (∀ {κ ν : Type} [SignedWord κ] [BEq ν] {policy : NullPolicy} {m : WordKeyMap κ ν},
      m.Reachable (fun _ => True) policy →
      m.table.Enumerated m.layout m.hashOf m.entries ∧
      ((iterating m.layout).mapped Prod.fst).Exact m.table.iter m.keys ∧
      ((iterating m.layout).mapped Prod.snd).Exact m.table.iter m.values) ∧
    (∀ {η κ ν : Type} [Hasher η κ] [BEq κ] [EquivBEq κ] [BEq ν] {policy : NullPolicy} {m : KeyMap η κ ν},
      m.Reachable (fun hashing => Hasher.Lawful hashing.hasher κ) policy →
      m.table.Enumerated m.layout m.hashOf m.entries ∧
      ((iterating m.layout).mapped Prod.fst).Exact m.table.iter m.keys ∧
      ((iterating m.layout).mapped Prod.snd).Exact m.table.iter m.values) ∧
    (∀ {α : Type} [SignedWord α] {s : WordSet α}, s.Reachable → s.Enumerated) ∧
    (∀ {η α : Type} [Hasher η α] [BEq α] [EquivBEq α] {s : KeySet η α}, KeySet.Reachable s →
      s.table.Enumerated s.layout s.hashOf (s.table.entries s.layout) ∧
      ((iterating s.layout).mapped Prod.fst).Exact s.table.iter s.members) := by
  refine ⟨?_, ?_, ?_, fun h => h.enumerated, ?_⟩
  · -- enumeration follows the slots, so each part needs only a well-formed table with a vacant slot
    intro κ ν _ _ m h
    obtain ⟨_, rfl, h⟩ := h.represents
    have henumerated := h.toWellFormed.enumerated (inlineLayout_lawful m.missing) h.len_lt
    exact ⟨henumerated, henumerated.exact.mapped _, henumerated.exact.mapped _⟩
  · intro κ ν _ _ policy m h
    obtain ⟨hashing, -, h⟩ := h.represents fun hashing _ => wordSlot_lawful hashing
    have henumerated := h.table.toWellFormed.enumerated (wordSlot_lawful hashing) h.table.len_lt
    exact ⟨henumerated, henumerated.exact.mapped _, henumerated.exact.mapped _⟩
  · intro η κ ν _ _ _ _ policy m h
    obtain ⟨_, hlawful, rfl, -, h⟩ := h.represents fun _ h => bucket_lawful h
    have henumerated := h.toWellFormed.enumerated (bucket_lawful hlawful) h.len_lt
    exact ⟨henumerated, henumerated.exact.mapped _, henumerated.exact.mapped _⟩
  · intro η α _ _ _ s h
    obtain ⟨_, hlawful, hhashing, h⟩ := h.represents
    have henumerated := h.toWellFormed.enumerated (hashedMember_lawful hlawful) h.len_lt
    rw [← hhashing] at henumerated
    exact ⟨henumerated, henumerated.exact.mapped _⟩

/-- Iterators over tables with keys that collide, one of which has grown; entries were removed before others that
had been put behind them. Minus one is a member of the set of words, whose run goes round the end of the array. -/
theorem enumerated_of_reachable_colliding :
    let word : WordMap Int32 Int32 := finalState WordMap.Operation.perform
      [.insert 1 10, .insert 14 20, .insert (-1) 30, .insert 4 40, .erase 14] (.empty (-1))
    let wordKey : WordKeyMap Int64 Int32 := finalState ValueMap.Operation.perform
      [.insert 10 1, .insertNull 11, .insert 1 3, .insert 12 4] (.empty .nullable {})
    let key : KeyMap HasherChoice String Int32 := finalState ValueMap.Operation.perform
      [.extend [("a", 1), ("b", 2), ("c", 3), ("d", 4), ("e", 5), ("f", 6)], .erase "b"]
      (.empty .nonNull ⟨.constant 7⟩)
    let wordSet : WordSet Int32 := finalState WordSet.Operation.perform
      [.extend [15, -1, 16, 14, 30]] .empty
    let keySet : KeySet HasherChoice String := finalState MemberSet.Operation.perform
      [.extend ["a", "b", "c"], .take "a"] (.empty ⟨.constant 7⟩)
    (word.Reachable ∧ word.table.Enumerated word.layout SignedWord.spread word.entries) ∧
    (wordKey.Reachable (fun _ => True) .nullable ∧
      wordKey.table.Enumerated wordKey.layout wordKey.hashOf wordKey.entries) ∧
    (key.Reachable (fun hashing => Hasher.Lawful hashing.hasher String) .nonNull ∧
      key.table.Enumerated key.layout key.hashOf key.entries) ∧
    (wordSet.Reachable ∧ wordSet.contains (-1) = true ∧ wordSet.Enumerated) ∧
    (KeySet.Reachable keySet ∧
      keySet.table.Enumerated keySet.layout keySet.hashOf (keySet.table.entries keySet.layout)) := by
  intro word wordKey key wordSet keySet
  obtain ⟨ofWord, ofWordKey, ofKey, ofWordSet, ofKeySet⟩ := enumerated_of_reachable
  have hlawful : ∀ hasher : HasherChoice, Hasher.Lawful hasher String :=
    fun hasher a b h => by rw [eq_of_beq h]
  refine ⟨?_, ?_, ?_, ?_, ?_⟩
  · have h : word.Reachable := ⟨{}, -1, _, WordMap.ofConfig_default _, .run (by decide +kernel)⟩
    exact ⟨h, (ofWord h).1⟩
  · have h : wordKey.Reachable (fun _ => True) .nullable :=
      ⟨{}, {}, _, trivial, ValueMap.ofConfig_default _ _, .run (by decide +kernel)⟩
    exact ⟨h, (ofWordKey h).1⟩
  · have h : key.Reachable (fun hashing => Hasher.Lawful hashing.hasher String) .nonNull :=
      ⟨{}, ⟨.constant 7⟩, _, hlawful _, ValueMap.ofConfig_default _ _, .run (by decide +kernel)⟩
    exact ⟨h, (ofKey h).1⟩
  · have h : wordSet.Reachable := ⟨{}, _, WordSet.ofConfig_default, .run (by decide +kernel)⟩
    exact ⟨h, by decide +kernel, ofWordSet h⟩
  · have h : KeySet.Reachable keySet :=
      ⟨.constant 7, {}, _, hlawful _, MemberSet.ofConfig_default _, .run (by decide +kernel)⟩
    exact ⟨h, (ofKeySet h).1⟩

end LinearProbing
