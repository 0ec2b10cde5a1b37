import LinearProbing.Proofs.OccupiedSlots
import LinearProbing.Proofs.Restoring.Sets
import LinearProbing.Proofs.Restoring.ValueMap
import LinearProbing.Proofs.Restoring.WordMap
import LinearProbing.Proofs.Tally.Counting

/-!
# LinearProbing.Proofs.Restoring.Containers

**What is done to an absent key is undone when it is absent again**, in every container over a probing table:
every slot has the occupant that it had, so that lengths, capacities and all orders of iteration are as before
(`Table.Restored`). This takes that the table does not grow for the key.
-/

namespace LinearProbing

/-! ### Tables -/

namespace Table

variable {σ κ ν : Type} {E : EntryLayout σ κ ν} {counted : Prop} {t u : Table σ}

/-- A table is what it was. -/
structure Restored (E : EntryLayout σ κ ν) (t u : Table σ) : Prop where
  /-- The capacity is as before, with the load factor and the threshold. -/
  sizing_eq : u.sizing = t.sizing
  len_eq : u.len = t.len
  /-- Every slot has the occupant that it had, or is vacant as it was. -/
  slots : E.layout.Like t.slots u.slots
  entries_eq : u.entries E = t.entries E
  /-- Iterators produce the same. -/
  iterated_eq : ∀ count, (u.iter.take E count).1 = (t.iter.take E count).1
  /-- Cursors produce the same. -/
  scanOrder_eq : E.scanOrder u.slots = E.scanOrder t.slots

theorem Like.scanOrder_eq (h : t.Like E counted u) : E.scanOrder t.slots = E.scanOrder u.slots := by
  have hentry : ∀ i, E.entryAt? t.slots i = E.entryAt? u.slots i := h.entryAt?_eq
  rw [EntryLayout.scanOrder, EntryLayout.scanOrder, EntryLayout.below_eq_filterMap,
    EntryLayout.below_eq_filterMap, h.slots.origin_eq, h.slots.size_eq, funext hentry]

theorem Like.restored (h : t.Like E counted u) : t.Restored E u where
  sizing_eq := h.sizing_eq.symm
  len_eq := h.len_eq.symm
  slots := h.slots
  entries_eq := h.entries_eq.symm
  iterated_eq count := (h.take_iter_eq count).symm
  scanOrder_eq := h.scanOrder_eq.symm

end Table

/-! ### Maps of words -/

namespace WordMap

variable {κ ν : Type} [SignedWord κ] [SignedWord ν] {m : WordMap κ ν} {key : κ}

theorem Reachable.exists_roomFor (h : m.Reachable) (habsent : m.contains key = false)
    (hroom : m.table.HasRoom) : ∃ place, RoomFor m.missing m.table key place := by
  obtain ⟨missing, rfl, htable⟩ := h.represents
  exact htable.toWellFormed.exists_roomFor (inlineLayout_lawful _) htable.len_lt (find?_of_contains habsent)
    fun _ _ => hroom

theorem restoresAbsent :
    RestoresAbsent (fun m : WordMap κ ν => m.Reachable) (fun m _ => m.table.HasRoom) Operation.perform
      contains Operation.Concerns Operation.Removes fun m m' => m.table.Restored m.layout m'.table := by
  intro m key h habsent hroom
  obtain ⟨place, room⟩ := h.exists_roomFor habsent hroom
  refine .of_kept (R := UpToKey m.missing m.table key place) ⟨rfl, .refl⟩ ?_ ?_ ?_
  · intro op m h hop
    exact h.perform room hop
  · intro m h habsent
    exact (h.restored_of_find? room (find?_of_contains habsent)).2.restored
  · intro op m h hop
    exact (h.restored room hop).2.restored

end WordMap

/-! ### Tallies -/

namespace Tally

variable {κ ν : Type} [SignedWord κ] [SignedWord ν] {t : Tally κ ν} {key : κ}

/-- The operation concerns only a key if it does in the map of counts. -/
def Operation.Concerns (key : κ) (op : Operation κ ν) (t : Tally κ ν) : Prop :=
  (op.onCounts t.initial).Concerns key t.counts

/-- The operation removes a key from the map of counts: it sets the count back to the initial value, or what
it adds or computes leads to the initial value. -/
def Operation.Removes (key : κ) (op : Operation κ ν) (t : Tally κ ν) : Prop :=
  (op.onCounts t.initial).Removes key t.counts

theorem restoresAbsent :
    RestoresAbsent (fun t : Tally κ ν => t.Reachable) (fun t _ => t.counts.table.HasRoom) Operation.perform
      contains Operation.Concerns Operation.Removes
      fun t t' => t.counts.table.Restored t.counts.layout t'.counts.table := by
  intro t key h habsent hroom
  have hwrapped := Restores.wrapped id Operation.wraps (WordMap.restoresAbsent h.counts habsent hroom)
  exact hwrapped

open WordMap (UpToKey Restored RoomFor)

variable {m : WordMap κ ν} {missing amount : ν} {u : Table (κ × ν)} {place : Nat}

theorem concerns_adding : (Operation.adding key amount).Concerns key m := by
  unfold Operation.adding
  split
  · trivial
  · rfl

/-- Reading leaves the map alone, also where the search never ends. -/
theorem state_perform_get : ((WordMap.Operation.get key).perform m).state = m :=
  Call.state_searching (P := (· = m)) (fun _ => rfl) rfl

variable [LawfulSignedWord ν]

theorem get_adding (room : RoomFor m.missing m.table key place) :
    ((Operation.adding key amount).perform m).state.get key = SignedWord.wrappingAdd m.missing amount := by
  unfold Operation.adding
  split
  · next hamount =>
    rw [hamount, SignedWord.wrappingAdd_zero, state_perform_get]
    exact WordMap.get_of_find?_none (Table.find?_of_vacant room.located)
  · exact WordMap.get_compute_of_roomFor room rfl

/-- What leads back to the initial value restores the map of counts. -/
theorem restored_adding (room : RoomFor missing u key place) (h : m.UpToKey missing u key place)
    (hsum : SignedWord.wrappingAdd (m.get key) amount = m.missing) :
    ((Operation.adding key amount).perform m).state.Restored missing u := by
  unfold Operation.adding
  split
  · next hamount =>
    rw [hamount, SignedWord.wrappingAdd_zero] at hsum
    rw [state_perform_get]
    cases hfind : m.find? key with
    | none => exact h.restored_of_find? room hfind
    | some i =>
        exact absurd ((WordMap.get_of_find?_some hfind).symm.trans hsum) (WordMap.valueAt_ne_missing hfind)
  · exact h.restored_compute room (congrArg Reply.answers hsum)

/-- **Two steps that cancel each other restore a tally.** -/
theorem restored_of_cancelling (h : t.Reachable) (habsent : t.contains key = false)
    (hroom : t.counts.table.HasRoom) {up down : Operation κ ν} {a b : ν} (hup : up.added? = some (key, a))
    (hdown : down.added? = some (key, b))
    (hcancel : SignedWord.wrappingAdd (SignedWord.wrappingAdd t.initial a) b = t.initial) :
    t.counts.table.Restored t.counts.layout
      (finalState Operation.perform [up, down] t).counts.table := by
  obtain ⟨place, room⟩ := h.counts.exists_roomFor habsent hroom
  -- both steps add to the count of one key, and the second takes back what the first has added
  have hfirst : (up.perform t).state.counts = ((Operation.adding key a).perform t.counts).state := by
    rw [← Operation.onCounts_of_added? hup t.initial]
    exact (up.wraps t).state
  have hsecond : (finalState Operation.perform [up, down] t).counts =
      ((Operation.adding key b).perform (up.perform t).state.counts).state := by
    rw [← Operation.onCounts_of_added? hdown (up.perform t).state.initial]
    exact (down.wraps (up.perform t).state).state
  have hup : ((Operation.adding key a).perform t.counts).state.UpToKey t.initial t.counts.table key place :=
    UpToKey.perform room ⟨rfl, .refl⟩ concerns_adding
  rw [hsecond, hfirst]
  refine (restored_adding room hup ?_).2.restored
  rw [get_adding room, hup.missing_eq]
  exact hcancel

end Tally

/-! ### Maps to values -/

namespace ValueMap

variable {σ η κ ν : Type} [EntrySlot σ κ ν] [KeyHash η κ] [BEq κ] [EquivBEq κ] [BEq ν]
variable {lawful : η → Prop} {hashing : η} {policy : NullPolicy} {m : ValueMap σ η κ ν} {key : κ}
  {M : FiniteMap κ (Option ν)}

omit [EquivBEq κ] [BEq ν] in
theorem find?_of_contains (h : m.contains key = false) : m.find? key = none :=
  Option.isNone_iff_eq_none.mp (Option.isSome_eq_false_iff.mp h)

theorem Represents.restores (hE : LawfulSlots σ hashing) (h : m.Represents hashing policy False M)
    (habsent : m.contains key = false) (hroom : m.table.HasRoom) :
    Restores Operation.perform contains Operation.Concerns Operation.Removes
      (fun m m' => m.table.Restored m.layout m'.table) m key := by
  obtain ⟨rfl, -, htable⟩ := h
  obtain ⟨place, room⟩ := htable.toWellFormed.exists_roomFor hE htable.len_lt (find?_of_contains habsent)
    fun _ _ => hroom
  refine .of_kept (R := UpToKey m.hashing m.table key place) ⟨rfl, .refl⟩ ?_ ?_ ?_
  · intro op m h hop
    exact h.perform hE room hop
  · intro m h habsent
    exact (h.restored_of_find? hE room BEq.rfl (find?_of_contains habsent)).2.restored
  · intro op m h hop
    exact (h.restored hE room hop).2.restored

theorem restoresAbsent (hlawful : ∀ hashing, lawful hashing → LawfulSlots σ hashing) :
    RestoresAbsent (fun m : ValueMap σ η κ ν => ∃ policy, m.Reachable lawful policy)
      (fun m _ => m.table.HasRoom) Operation.perform contains Operation.Concerns Operation.Removes
      fun m m' => m.table.Restored m.layout m'.table := by
  rintro m key ⟨policy, h⟩ habsent hroom
  obtain ⟨_, hhashing, h⟩ := h.represents hlawful
  exact h.restores (hlawful _ hhashing) habsent hroom

end ValueMap

/-! ### Maps keyed by pairs of words -/

namespace PairMap

variable {ν : Type} [BEq ν]

/-- The operation concerns only a pair if it does in the map inside. -/
def Operation.Concerns (pair : Int32 × Int32) (op : Operation ν) (m : PairMap ν) : Prop :=
  op.onInner.Concerns (keyOf pair) m.inner

/-- The operation removes a pair if it does in the map inside. -/
def Operation.Removes (pair : Int32 × Int32) (op : Operation ν) (m : PairMap ν) : Prop :=
  op.onInner.Removes (keyOf pair) m.inner

theorem restoresAbsent :
    RestoresAbsent (fun m : PairMap ν => m.Reachable) (fun m _ => m.inner.table.HasRoom) Operation.perform
      contains Operation.Concerns Operation.Removes
      fun m m' => m.inner.table.Restored m.inner.layout m'.inner.table := by
  intro m pair h habsent hroom
  have hwrapped := Restores.wrapped keyOf Operation.wraps
    (h.represents.1.restores (wordSlot_lawful {}) habsent hroom)
  exact hwrapped

end PairMap

/-! ### Sets -/

theorem WordSet.restoresAbsent {α : Type} [SignedWord α] :
    RestoresAbsent (fun s : WordSet α => s.Reachable)
      (fun s x => x ≠ SignedWord.minusOne → s.inner.table.HasRoom) Operation.perform contains
      Operation.Concerns Operation.Removes
      fun s s' => s.inner.table.Restored s.inner.layout s'.inner.table ∧ s'.marked = s.marked := by
  intro s x h habsent hroom
  have htable := h.represents.inner.table
  obtain ⟨place, room⟩ := htable.toWellFormed.exists_roomFor (wordMember_lawful {}) htable.len_lt
    (find?_of_contains habsent) fun hy hstorable => hroom (eq_of_beq hy ▸ hstorable)
  have room : RoomFor s.inner.table s.marked x place := by
    -- minus one has no slot; where it is the member at hand, the mark says it is absent
    refine ⟨room, fun hx => ?_⟩
    rwa [contains, if_pos hx] at habsent
  refine .of_kept (R := UpToMember s.inner.table s.marked x place)
    ⟨⟨rfl, .refl⟩, fun _ => rfl⟩ ?_ ?_ ?_
  · intro op u h hop
    exact h.perform room hop
  · intro u h habsent
    have hrestored := h.restored_of_contains room habsent
    exact ⟨hrestored.inner.2.restored, hrestored.marked_eq⟩
  · intro op u h hop
    have hrestored := h.restored room hop
    exact ⟨hrestored.inner.2.restored, hrestored.marked_eq⟩

theorem KeySet.restoresAbsent {η α : Type} [Hasher η α] [BEq α] [EquivBEq α] :
    RestoresAbsent (fun s : KeySet η α => Reachable s) (fun s _ => s.table.HasRoom)
      MemberSet.Operation.perform MemberSet.contains MemberSet.Operation.Concerns MemberSet.Operation.Removes
      fun s s' => s.table.Restored s.layout s'.table := by
  rintro ⟨hashing, t⟩ x h habsent hroom
  obtain ⟨hasher, hlawful, hhashing, htable⟩ := h.represents
  obtain rfl : hashing = ⟨hasher⟩ := hhashing
  have hE := hashedMember_lawful hlawful
  -- the slot where an absent member would be put stays the same while the others are left alone
  obtain ⟨place, room⟩ := htable.toWellFormed.exists_roomFor hE htable.len_lt
    (MemberSet.find?_of_contains habsent) fun _ _ => hroom
  refine .of_kept (R := MemberSet.UpToMember ⟨hasher⟩ EntryLayout.AnyEntry t x place)
    ⟨rfl, .refl⟩ ?_ ?_ ?_
  · intro op u h hop
    exact h.perform hE room (fun _ _ => EntryLayout.anyEntry ..) hop
  · intro u h habsent
    exact (h.restored_of_find? hE room BEq.rfl (MemberSet.find?_of_contains habsent)).2.restored
  · intro op u h hop
    exact (h.restored hE room hop).2.restored

/-! ### All of them -/

/-- **What is done to an absent key is undone when it is absent again**, in every container over a probing
table: if a key is absent and there is room for it, and if a run of operations concerns only the key, then the
table is what it was as soon as the key is absent, and whenever an operation removes the key. In a tally, two
steps do this that cancel each other. -/
theorem restores_of_reachable :
    (∀ {κ ν : Type} [SignedWord κ] [SignedWord ν],
      RestoresAbsent (fun m : WordMap κ ν => m.Reachable) (fun m _ => m.table.HasRoom)
        WordMap.Operation.perform WordMap.contains WordMap.Operation.Concerns WordMap.Operation.Removes
        fun m m' => m.table.Restored m.layout m'.table) ∧
    (∀ {κ ν : Type} [SignedWord κ] [BEq ν],
      RestoresAbsent (fun m : WordKeyMap κ ν => ∃ policy, m.Reachable (fun _ => True) policy)
        (fun m _ => m.table.HasRoom) ValueMap.Operation.perform ValueMap.contains ValueMap.Operation.Concerns
        ValueMap.Operation.Removes fun m m' => m.table.Restored m.layout m'.table) ∧
    (∀ {η κ ν : Type} [Hasher η κ] [BEq κ] [EquivBEq κ] [BEq ν],
      RestoresAbsent
        (fun m : KeyMap η κ ν => ∃ policy, m.Reachable (fun hashing => Hasher.Lawful hashing.hasher κ) policy)
        (fun m _ => m.table.HasRoom) ValueMap.Operation.perform ValueMap.contains ValueMap.Operation.Concerns
        ValueMap.Operation.Removes fun m m' => m.table.Restored m.layout m'.table) ∧
    (∀ {ν : Type} [BEq ν],
      RestoresAbsent (fun m : PairMap ν => m.Reachable) (fun m _ => m.inner.table.HasRoom)
        PairMap.Operation.perform PairMap.contains PairMap.Operation.Concerns PairMap.Operation.Removes
        fun m m' => m.inner.table.Restored m.inner.layout m'.inner.table) ∧
    (∀ {κ ν : Type} [SignedWord κ] [SignedWord ν],
      RestoresAbsent (fun t : Tally κ ν => t.Reachable) (fun t _ => t.counts.table.HasRoom)
          Tally.Operation.perform Tally.contains Tally.Operation.Concerns Tally.Operation.Removes
          (fun t t' => t.counts.table.Restored t.counts.layout t'.counts.table) ∧
        ∀ [LawfulSignedWord ν] {t : Tally κ ν} {key : κ} {up down : Tally.Operation κ ν} {a b : ν},
          t.Reachable → t.contains key = false → t.counts.table.HasRoom →
            up.added? = some (key, a) → down.added? = some (key, b) →
              SignedWord.wrappingAdd (SignedWord.wrappingAdd t.initial a) b = t.initial →
                t.counts.table.Restored t.counts.layout
                  (finalState Tally.Operation.perform [up, down] t).counts.table) ∧
    (∀ {α : Type} [SignedWord α],
      RestoresAbsent (fun s : WordSet α => s.Reachable)
        (fun s x => x ≠ SignedWord.minusOne → s.inner.table.HasRoom) WordSet.Operation.perform
        WordSet.contains WordSet.Operation.Concerns WordSet.Operation.Removes
        fun s s' => s.inner.table.Restored s.inner.layout s'.inner.table ∧ s'.marked = s.marked) ∧
    (∀ {η α : Type} [Hasher η α] [BEq α] [EquivBEq α],
      RestoresAbsent (fun s : KeySet η α => KeySet.Reachable s) (fun s _ => s.table.HasRoom)
        MemberSet.Operation.perform MemberSet.contains MemberSet.Operation.Concerns
        MemberSet.Operation.Removes fun s s' => s.table.Restored s.layout s'.table) :=
  ⟨WordMap.restoresAbsent, ValueMap.restoresAbsent fun hashing _ => wordSlot_lawful hashing,
    ValueMap.restoresAbsent fun _ h => bucket_lawful h, PairMap.restoresAbsent,
    ⟨Tally.restoresAbsent, fun h habsent hroom => Tally.restored_of_cancelling h habsent hroom⟩,
    WordSet.restoresAbsent, KeySet.restoresAbsent⟩

/-- Four keys lie in two runs, one of which ends at the end of the array. One more key comes to lie in the
slot between them, and joins them to one run, which goes round the end of the array. It goes again: it is
erased, under another spelling where there is one, a function computes the missing value or none, a cursor
removes it, or the opposite step is taken. -/
theorem restores_of_reachable_joined :
    let apart : Finset Nat := {1, 2, 6, 7}
    let joined : Finset Nat := {0, 1, 2, 6, 7}
    let word : WordMap Int32 Int32 := finalState WordMap.Operation.perform
      [.insert 1 10, .insert 14 20, .insert 4 30, .insert 11 40] (.empty (-1))
    let word' := finalState WordMap.Operation.perform
      [.merge 17 50 fun _ _ => .panics, .contains 11] word
    let wordKey : WordKeyMap Int64 Int32 := finalState ValueMap.Operation.perform
      [.insert 10 1, .insertNull 11, .insert 1 3, .insert 12 4] (.empty .nullable {})
    let wordKey' := finalState ValueMap.Operation.perform
      [.insertNull 26, .compute 26 fun _ old => .answers (old.or (some 5))] wordKey
    let key : KeyMap HasherChoice Caseless Int32 := finalState ValueMap.Operation.perform
      [.extend [(⟨"b"⟩, 1), (⟨"i"⟩, 2), (⟨"c"⟩, 3), (⟨"n"⟩, 4)]] (.empty .nonNull ⟨.byteSum⟩)
    let key' := finalState ValueMap.Operation.perform [.insertIfAbsent ⟨"K"⟩ 5] key
    let pair : PairMap Int32 := finalState PairMap.Operation.perform
      [.insert (1, 5) 1, .insert (1, 14) 2, .insert (1, 3) 3, .insert (1, 16) 4] .empty
    let pair' := finalState PairMap.Operation.perform
      [.computeIfAbsent (1, 21) fun _ => .answers (some 5)] pair
    let tally : Tally Int32 Int32 := finalState Tally.Operation.perform
      [.set 1 10, .incrementAndGet 14, .addAndGet 4 30, .getAndDecrement 11] (.empty 7)
    let tally' := finalState Tally.Operation.perform [.getAndIncrement 17] tally
    let wordSet : WordSet Int32 := finalState WordSet.Operation.perform [.extend [1, 14, -1, 4, 11]] .empty
    let wordSet' := finalState WordSet.Operation.perform [.insert 17] wordSet
    let keySet : KeySet HasherChoice String := finalState MemberSet.Operation.perform
      [.extend ["b", "i", "c", "n"]] (.empty ⟨.byteSum⟩)
    let keySet' := finalState MemberSet.Operation.perform [.insert "r"] keySet
    (word.table.occupied word.layout = apart ∧ word'.table.occupied word.layout = joined ∧
      word.table.Restored word.layout
        ((WordMap.Operation.compute 17 fun _ _ => .answers (-1)).perform word').state.table) ∧
    (wordKey.table.occupied wordKey.layout = apart ∧ wordKey'.table.occupied wordKey.layout = joined ∧
      wordKey.table.Restored wordKey.layout
        ((ValueMap.Operation.cursor [.next, .next, .next, .remove]).perform wordKey').state.table) ∧
    (key.table.occupied key.layout = apart ∧ key'.table.occupied key.layout = joined ∧
      key.table.Restored key.layout ((ValueMap.Operation.erase ⟨"k"⟩).perform key').state.table) ∧
    (pair.inner.table.occupied pair.inner.layout = apart ∧
      pair'.inner.table.occupied pair.inner.layout = joined ∧
      pair.inner.table.Restored pair.inner.layout
        ((PairMap.Operation.merge (1, 21) 6 fun _ _ => .answers none).perform pair').state.inner.table) ∧
    (tally.counts.table.occupied tally.counts.layout = apart ∧
      tally'.counts.table.occupied tally.counts.layout = joined ∧
      tally.counts.table.Restored tally.counts.layout
        (finalState Tally.Operation.perform [.getAndIncrement 17, .decrementAndGet 17] tally).counts.table) ∧
    (wordSet.inner.table.occupied wordSet.inner.layout = apart ∧
      wordSet'.inner.table.occupied wordSet.inner.layout = joined ∧
      let removed := ((WordSet.Operation.cursor [.next, .next, .next, .remove]).perform wordSet').state
      wordSet.inner.table.Restored wordSet.inner.layout removed.inner.table ∧
        removed.marked = wordSet.marked) ∧
    (keySet.table.occupied keySet.layout = apart ∧ keySet'.table.occupied keySet.layout = joined ∧
      keySet.table.Restored keySet.layout ((MemberSet.Operation.take "r").perform keySet').state.table) := by
  intro apart joined word word' wordKey wordKey' key key' pair pair' tally tally' wordSet wordSet'
    keySet keySet'
  obtain ⟨ofWord, ofWordKey, ofKey, ofPair, ofTally, ofWordSet, ofKeySet⟩ := restores_of_reachable
  refine ⟨⟨by decide +kernel, by decide +kernel, ?_⟩, ⟨by decide +kernel, by decide +kernel, ?_⟩,
    ⟨by decide +kernel, by decide +kernel, ?_⟩, ⟨by decide +kernel, by decide +kernel, ?_⟩,
    ⟨by decide +kernel, by decide +kernel, ?_⟩, ⟨by decide +kernel, by decide +kernel, ?_⟩,
    ⟨by decide +kernel, by decide +kernel, ?_⟩⟩
  · have h : word.Reachable := ⟨{}, -1, _, WordMap.ofConfig_default _, .run (by decide +kernel)⟩
    have habsent : word.contains 17 = false := by decide +kernel
    have hrestores := ofWord h habsent (by decide +kernel)
    have hmissing : word'.missing = -1 := by decide +kernel
    exact hrestores.removed [.merge 17 50 fun _ _ => .panics, .contains 11] _ ⟨rfl, trivial, trivial⟩
      ⟨rfl, congrArg Reply.answers hmissing.symm⟩
  · have h : wordKey.Reachable (fun _ => True) .nullable :=
      ⟨{}, {}, _, trivial, ValueMap.ofConfig_default _ _, .run (by decide +kernel)⟩
    have habsent : wordKey.contains 26 = false := by decide +kernel
    have hrestores := ofWordKey ⟨_, h⟩ habsent (by decide +kernel)
    refine hrestores.removed [.insertNull 26, .compute 26 fun _ old => .answers (old.or (some 5))] _
      ⟨BEq.rfl, BEq.rfl, trivial⟩ ?_
    exact ⟨[.next, .next, .next], rfl, trivial, (26, some 5), by decide +kernel, by decide +kernel⟩
  · have h : key.Reachable (fun hashing => Hasher.Lawful hashing.hasher Caseless) .nonNull :=
      ⟨{}, ⟨.byteSum⟩, _, Caseless.lawful_hasherChoice _, ValueMap.ofConfig_default _ _,
        .run (by decide +kernel)⟩
    have habsent : key.contains ⟨"K"⟩ = false := by decide +kernel
    have hrestores := ofKey ⟨_, h⟩ habsent (by decide +kernel)
    -- nothing more has to be computed from the map
    clear_value key
    have hcase : ((⟨"k"⟩ : Caseless) == ⟨"K"⟩) = true :=
      Caseless.beq_of_folded (s := "k") (by decide +kernel) (by decide +kernel)
    exact hrestores.removed [.insertIfAbsent ⟨"K"⟩ 5] _ ⟨BEq.rfl, trivial⟩ hcase
  · have hnew : PairMap.ofConfig {} = .ok (PairMap.empty : PairMap Int32) := by
      rw [PairMap.ofConfig, ValueMap.ofConfig_default]; rfl
    have h : pair.Reachable := ⟨{}, _, hnew, .run (by decide +kernel)⟩
    have habsent : pair.contains (1, 21) = false := by decide +kernel
    have hrestores := ofPair h habsent (by decide +kernel)
    exact hrestores.removed [.computeIfAbsent (1, 21) fun _ => .answers (some 5)] _
      ⟨BEq.rfl, trivial⟩ ⟨BEq.rfl, 5, by decide +kernel, nofun⟩
  · have hnew : Tally.ofConfig {} 7 = .ok (.empty 7 : Tally Int32 Int32) := by
      rw [Tally.ofConfig, WordMap.ofConfig_default]; rfl
    have h : tally.Reachable := ⟨{}, 7, _, hnew, .run (by decide +kernel)⟩
    have habsent : tally.contains 17 = false := by decide +kernel
    exact ofTally.2 h habsent (by decide +kernel) rfl rfl (by decide +kernel)
  · have h : wordSet.Reachable := ⟨{}, _, WordSet.ofConfig_default, .run (by decide +kernel)⟩
    have habsent : wordSet.contains 17 = false := by decide +kernel
    have hrestores := ofWordSet h habsent fun _ => by decide +kernel
    refine hrestores.removed [.insert 17] _ ⟨rfl, trivial⟩ ?_
    exact ⟨[.next, .next, .next], rfl, trivial, 17, by decide +kernel, rfl⟩
  · have hlawful : Hasher.Lawful HasherChoice.byteSum String := fun a b h => by rw [eq_of_beq h]
    have h : KeySet.Reachable keySet :=
      ⟨.byteSum, {}, _, hlawful, MemberSet.ofConfig_default _, .run (by decide +kernel)⟩
    have habsent : MemberSet.contains keySet "r" = false := by decide +kernel
    have hrestores := ofKeySet h habsent (by decide +kernel)
    clear_value keySet
    exact hrestores.removed [.insert "r"] _ ⟨BEq.rfl, trivial⟩ BEq.rfl

end LinearProbing
