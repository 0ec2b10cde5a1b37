import LinearProbing.Proofs.ContentHash
import LinearProbing.Proofs.PairMap.Represents
import LinearProbing.Proofs.SetRefinement
import LinearProbing.Proofs.Tally.Operation

/-!
# LinearProbing.Proofs.Contents

**What containers hold decides how they compare.** Comparing two containers looks up the entries of one in
the other, and compares their lengths. For any two containers that are reached (`Reachable`), this is to
compare the entries that they hold (`Represents.beq_iff`), whatever their tables look like; so is comparing
a container with a plain list of entries (`Represents.beqEntries_iff`).
-/

namespace LinearProbing

/-! ### Maps of words -/

namespace WordMap

variable {κ ν : Type} [SignedWord κ] [SignedWord ν] {a b m : WordMap κ ν} {missing missing' : ν}

/-- The map is reached from some new map. -/
def Reachable (m : WordMap κ ν) : Prop :=
  ∃ config missing new, ofConfig config missing = .ok new ∧
    Reaches table Operation.perform new m

/-- A map that stands for any entries stands for those that it holds. -/
theorem Represents.of_entries {within : Prop} {M : FiniteMap κ ν} (h : m.Represents missing within M) :
    m.Represents missing within ⟨m.entries⟩ :=
  ⟨h.missing_eq, h.table.perm h.entries_perm.symm⟩

/-- A map stands for the entries that it holds. -/
theorem Reachable.represents (h : m.Reachable) : ∃ missing, m.Represents missing False ⟨m.entries⟩ := by
  obtain ⟨config, missing, new, hnew, hreached⟩ := h
  obtain ⟨M, hM⟩ := exists_of_reaches hnew hreached
  exact ⟨missing, hM.of_entries⟩

theorem Represents.distinct (h : m.Represents missing False ⟨m.entries⟩) :
    (⟨m.entries⟩ : FiniteMap κ ν).Distinct :=
  h.table.distinct

theorem Represents.len_eq (h : m.Represents missing False ⟨m.entries⟩) : m.len = m.entries.length :=
  h.table.len_eq_length

/-- **Maps are equal if and only if they hold the same entries.** -/
theorem Represents.beq_iff (ha : a.Represents missing False ⟨a.entries⟩)
    (hb : b.Represents missing' False ⟨b.entries⟩) :
    (a == b) = true ↔ SameEntries a.entries b.entries := by
  change (a.len == b.len && a.entries.all fun e => b.get? e.1 == some e.2) = true ↔ _
  simp only [ha.len_eq, hb.len_eq, hb.get?_eq]
  exact ha.distinct.sameEntries_iff hb.distinct

/-- **A map is equal to a list of entries if and only if it holds these.** -/
theorem Represents.beqEntries_iff (h : m.Represents missing False ⟨m.entries⟩) {l : List (κ × ν)}
    (hl : (⟨l⟩ : FiniteMap κ ν).Distinct) : m.beqEntries l = true ↔ SameEntries m.entries l := by
  simp only [beqEntries, includes, h.len_eq, h.get?_eq]
  exact hl.sameEntries_swap_iff h.distinct

end WordMap

/-! ### Maps to values that may be null -/

/-- An entry with a value, as one that may be null. -/
def withSome {κ ν : Type} (e : κ × ν) : κ × Option ν := (e.1, some e.2)

/-- The entries that are not null. -/
def nonNull {κ ν : Type} (l : List (κ × Option ν)) : List (κ × ν) :=
  l.filterMap fun e => e.2.map (e.1, ·)

section NonNull

variable {κ ν : Type} {l l' : List (κ × Option ν)} {k : κ} {v : ν}

@[simp] theorem mem_nonNull : (k, v) ∈ nonNull l ↔ (k, some v) ∈ l := by
  simp only [nonNull, List.mem_filterMap, Option.map_eq_some_iff, Prod.mk.injEq]
  constructor
  · rintro ⟨⟨k', _⟩, he, v', rfl, rfl, rfl⟩
    exact he
  · exact fun he => ⟨_, he, v, rfl, rfl, rfl⟩

@[simp] theorem nonNull_map_withSome (l : List (κ × ν)) : nonNull (l.map withSome) = l := by
  rw [nonNull, List.filterMap_map]
  exact List.filterMap_some

/-- Without nulls, all entries have values. -/
theorem map_withSome_nonNull (h : ∀ e ∈ l, e.2 ≠ none) : (nonNull l).map withSome = l := by
  induction l with
  | nil => rfl
  | cons e rest ih =>
      obtain ⟨k, _ | v⟩ := e
      · exact absurd rfl (h _ List.mem_cons_self)
      · exact congrArg ((k, some v) :: ·) (ih fun e he => h e (List.mem_cons_of_mem _ he))

variable [BEq κ] [BEq ν]

omit [BEq κ] in
/-- To read a value is to find one that is not null. -/
theorem join_beq_some (stored : Option (Option ν)) (value : ν) :
    (stored.join == some value) = (stored == some (some value)) := by
  rcases stored with _ | _ | _ <;> rfl

theorem sameEntries_map_withSome_iff {l l' : List (κ × ν)} :
    SameEntries (l.map withSome) (l'.map withSome) ↔ SameEntries l l' :=
  SameElements.map_iff

/-- The same entries have the same values. -/
theorem SameElements.nonNull (h : SameEntries l l') : SameEntries (nonNull l) (nonNull l') := by
  constructor
  · rintro ⟨k, v⟩ he
    obtain ⟨⟨k', _ | v'⟩, hf, hkey, hvalue⟩ := h.left _ (mem_nonNull.mp he)
    · cases hvalue
    · exact ⟨(k', v'), mem_nonNull.mpr hf, hkey, hvalue⟩
  · rintro ⟨k, v⟩ he
    obtain ⟨⟨k', _ | v'⟩, hf, hkey, hvalue⟩ := h.right _ (mem_nonNull.mp he)
    · cases hvalue
    · exact ⟨(k', v'), mem_nonNull.mpr hf, hkey, hvalue⟩

omit [BEq ν] in
theorem FiniteMap.Distinct.nonNull (h : (⟨l⟩ : FiniteMap κ (Option ν)).Distinct) :
    (⟨LinearProbing.nonNull l⟩ : FiniteMap κ ν).Distinct := by
  refine List.Pairwise.filterMap _ ?_ h
  intro e f hne x hx y hy
  obtain ⟨v, -, rfl⟩ := Option.map_eq_some_iff.mp hx
  obtain ⟨w, -, rfl⟩ := Option.map_eq_some_iff.mp hy
  exact hne

omit [BEq ν] in
theorem FiniteMap.Distinct.map_withSome {l : List (κ × ν)} (h : (⟨l⟩ : FiniteMap κ ν).Distinct) :
    (⟨l.map withSome⟩ : FiniteMap κ (Option ν)).Distinct :=
  List.pairwise_map.mpr h

end NonNull

namespace ValueMap

variable {σ η κ ν : Type} [EntrySlot σ κ ν] [KeyHash η κ] [BEq κ] [EquivBEq κ] [BEq ν]
variable {lawful : η → Prop} {policy policy' : NullPolicy} {hashing hashing' : η} {a b m : ValueMap σ η κ ν}

omit [EquivBEq κ] in
/-- The map is reached from some new map of a policy. Of its hashing, something may be known. -/
def Reachable (lawful : η → Prop) (policy : NullPolicy) (m : ValueMap σ η κ ν) : Prop :=
  ∃ config hashing new, lawful hashing ∧ ofConfig config policy hashing = .ok new ∧
    Reaches table Operation.perform new m

/-- A map stands for the entries that it holds. -/
theorem Reachable.represents (hlawful : ∀ hashing, lawful hashing → LawfulSlots σ hashing)
    (h : m.Reachable lawful policy) :
    ∃ hashing, lawful hashing ∧ m.Represents hashing policy False ⟨m.entries⟩ := by
  obtain ⟨config, hashing, new, hhashing, hnew, hreached⟩ := h
  obtain ⟨M, hM⟩ := exists_of_reaches (hlawful hashing hhashing) hnew hreached
  exact ⟨hashing, hhashing, hM.perm hM.table.entries.symm⟩

omit [EquivBEq κ] [BEq ν] in
theorem Represents.len_eq (h : m.Represents hashing policy False ⟨m.entries⟩) :
    m.len = m.entries.length :=
  h.table.len_eq_length

omit [EquivBEq κ] [BEq ν] in
theorem Represents.valueEntries_perm {within : Prop} {M : FiniteMap κ (Option ν)}
    (h : m.Represents hashing policy within M) : m.valueEntries.Perm (nonNull M.entries) :=
  h.table.entries.filterMap _

variable [EquivBEq ν]

/-- **Maps are equal if and only if they hold the same entries**, nulls included. -/
theorem Represents.beq_iff (hE : LawfulSlots σ hashing')
    (ha : a.Represents hashing policy False ⟨a.entries⟩)
    (hb : b.Represents hashing' policy' False ⟨b.entries⟩) :
    (a == b) = true ↔ SameEntries a.entries b.entries := by
  change (a.len == b.len && a.entries.all fun e => (b.lookup? e.1).map Prod.snd == some e.2) = true ↔ _
  simp only [ha.len_eq, hb.len_eq, hb.lookup?_eq hE]
  exact ha.distinct.sameEntries_iff hb.distinct

/-- **A map is equal to a list of entries if and only if it holds these**, and no nulls. -/
theorem Represents.beqEntries_iff (hE : LawfulSlots σ hashing)
    (h : m.Represents hashing policy False ⟨m.entries⟩) {l : List (κ × ν)}
    (hl : (⟨l⟩ : FiniteMap κ ν).Distinct) :
    m.beqEntries l = true ↔ SameEntries m.entries (l.map withSome) := by
  have hread : ∀ e : κ × ν, (m.get? e.1 == some e.2) =
      ((⟨m.entries⟩ : FiniteMap κ (Option ν)).get? (withSome e).1 == some (withSome e).2) := by
    intro e
    rw [h.get?_eq hE]
    exact join_beq_some _ e.2
  rw [beqEntries, h.len_eq, funext hread]
  have hcheck := hl.map_withSome.sameEntries_swap_iff h.distinct
  rwa [List.length_map, List.all_map] at hcheck

end ValueMap

/-! ### Maps keyed by pairs of words -/

namespace PairMap

variable {ν : Type} [BEq ν] {a b m : PairMap ν}

/-- The map is reached from some new map. -/
def Reachable (m : PairMap ν) : Prop :=
  ∃ config new, ofConfig config = .ok new ∧
    Reaches (fun m => m.inner.table) Operation.perform new m

/-- An entry with its pair as one word. -/
def keyed (e : (Int32 × Int32) × ν) : Int64 × ν := (keyOf e.1, e.2)

omit [BEq ν] in
theorem map_keyed_entries (m : PairMap ν) : m.entries.map keyed = m.inner.valueEntries := by
  rw [entries, List.map_map]
  refine (List.map_congr_left fun e _ => ?_).trans (List.map_id _)
  exact Prod.ext (composeKey_splitKey e.1) rfl

theorem keyOf_injective : Function.Injective keyOf := by
  intro p q h
  have hsplit := congrArg splitKey h
  rwa [keyOf, keyOf, splitKey_composeKey, splitKey_composeKey] at hsplit

/-- Pairs are equal if the words that stand for them are. -/
theorem keyOf_beq_keyOf (p q : Int32 × Int32) : (keyOf p == keyOf q) = (p == q) := by
  rw [Bool.eq_iff_iff, beq_iff_eq, beq_iff_eq]
  exact keyOf_injective.eq_iff

theorem sameEntries_map_keyed_iff {l l' : List ((Int32 × Int32) × ν)} :
    SameEntries (l.map keyed) (l'.map keyed) ↔ SameEntries l l' := by
  refine SameElements.map_iff.trans (iff_of_eq (congrArg (SameElements · l l') ?_))
  funext e f
  rw [SameEntry, keyed, keyed, keyOf_beq_keyOf, SameEntry]

omit [BEq ν] in
theorem distinct_map_keyed_iff {l : List ((Int32 × Int32) × ν)} :
    (⟨l.map keyed⟩ : FiniteMap Int64 ν).Distinct ↔ (⟨l⟩ : FiniteMap (Int32 × Int32) ν).Distinct := by
  simp only [FiniteMap.Distinct, List.pairwise_map, keyed, keyOf_beq_keyOf]

/-- The map inside stands for the entries, with pairs as words. -/
theorem Reachable.represents (h : m.Reachable) :
    m.inner.Represents {} .nonNull False ⟨m.inner.entries⟩ ∧
      m.inner.entries = (m.entries.map keyed).map withSome := by
  obtain ⟨config, new, hnew, hreached⟩ := h
  obtain ⟨M, hM, hfree⟩ := exists_of_reaches hnew hreached
  refine ⟨hM.perm hM.table.entries.symm, ?_⟩
  rw [map_keyed_entries]
  exact (map_withSome_nonNull hfree).symm

/-- No pair occurs twice. -/
theorem Reachable.distinct (h : m.Reachable) : (⟨m.entries⟩ : FiniteMap (Int32 × Int32) ν).Distinct := by
  have hinner := h.represents.1.distinct.nonNull
  rw [h.represents.2, nonNull_map_withSome] at hinner
  exact distinct_map_keyed_iff.mp hinner

variable [EquivBEq ν]

/-- **Maps are equal if and only if they hold the same entries.** -/
theorem Reachable.beq_iff (ha : a.Reachable) (hb : b.Reachable) :
    (a == b) = true ↔ SameEntries a.entries b.entries := by
  refine (ha.represents.1.beq_iff (wordSlot_lawful {}) hb.represents.1).trans ?_
  rw [ha.represents.2, hb.represents.2]
  exact sameEntries_map_withSome_iff.trans sameEntries_map_keyed_iff

/-- **A map is equal to a list of entries if and only if it holds these.** -/
theorem Reachable.beqEntries_iff (h : m.Reachable) {l : List ((Int32 × Int32) × ν)}
    (hl : (⟨l⟩ : FiniteMap (Int32 × Int32) ν).Distinct) :
    m.beqEntries l = true ↔ SameEntries m.entries l := by
  have hinner := h.represents.1.beqEntries_iff (wordSlot_lawful {}) (distinct_map_keyed_iff.mpr hl)
  rw [h.represents.2] at hinner
  refine Iff.trans ?_ (hinner.trans (sameEntries_map_withSome_iff.trans sameEntries_map_keyed_iff))
  rw [beqEntries, ValueMap.beqEntries, List.length_map, List.all_map]
  rfl

end PairMap

/-! ### Tallies -/

namespace Tally

variable {κ ν : Type} [SignedWord κ] [SignedWord ν] {a b t : Tally κ ν}

/-- The tally is reached from some new tally. -/
def Reachable (t : Tally κ ν) : Prop :=
  ∃ config initial new, ofConfig config initial = .ok new ∧
    Reaches (fun t => t.counts.table) Operation.perform new t

/-- The map of counts is reached. -/
theorem Reachable.counts (h : t.Reachable) : t.counts.Reachable := by
  obtain ⟨config, initial, new, hnew, hreached⟩ := h
  obtain ⟨counts, hcounts, rfl⟩ := exists_of_map_eq_ok hnew
  refine ⟨config, initial, counts, hcounts, ?_⟩
  exact hreached.wrapped fun op t => ⟨op.onCounts t.initial, op.wraps t⟩

/-- **Tallies are equal if and only if they have the same initial value and hold the same counts.** -/
theorem Reachable.beq_iff (ha : a.Reachable) (hb : b.Reachable) :
    (a == b) = true ↔ a.initial = b.initial ∧ SameEntries a.entries b.entries := by
  obtain ⟨_, ha⟩ := ha.counts.represents
  obtain ⟨_, hb⟩ := hb.counts.represents
  change (decide (a.initial = b.initial) && a.counts == b.counts) = true ↔ _
  rw [Bool.and_eq_true, decide_eq_true_iff, ha.beq_iff hb]
  rfl

end Tally

/-! ### Sets -/

namespace MemberSet

variable {σ η α : Type} [MemberSlot σ α] [KeyHash η α] [BEq α] [EquivBEq α]
variable {hashing hashing' : η} {a b s : MemberSet σ η α}

/-- **Sets are equal if and only if they have the same members.** -/
theorem Represents.beq_iff (hE : LawfulSlots σ hashing' EntryLayout.AnyEntry)
    (ha : a.Represents hashing False ⟨a.members⟩) (hb : b.Represents hashing' False ⟨b.members⟩) :
    (a == b) = true ↔ SameMembers a.members b.members := by
  change (a.len == b.len && a.members.all b.contains) = true ↔ _
  rw [show a.len = a.members.length from ha.len_eq, show b.len = b.members.length from hb.len_eq,
    funext (hb.contains_eq hE)]
  exact ha.distinct.sameMembers_iff hb.distinct

/-- **A set is equal to a list of values if and only if it has these as its members.** -/
theorem Represents.beqMembers_iff (hE : LawfulSlots σ hashing EntryLayout.AnyEntry)
    (h : s.Represents hashing False ⟨s.members⟩) {l : List α} (hl : (⟨l⟩ : FiniteSet α).Distinct) :
    s.beqMembers l = true ↔ SameMembers s.members l := by
  rw [beqMembers, containsAll, show s.len = s.members.length from h.len_eq, funext (h.contains_eq hE)]
  exact hl.sameMembers_swap_iff h.distinct

end MemberSet

namespace WordSet

variable {α : Type} [SignedWord α] {a b s : WordSet α}

/-- **Sets are equal if and only if they have the same members**, minus one among them. -/
theorem Reachable.beq_iff (ha : a.Reachable) (hb : b.Reachable) :
    (a == b) = true ↔ SameMembers a.members b.members := by
  have ha := ha.represents
  have hb := hb.represents
  change (a.len == b.len && a.members.all b.contains) = true ↔ _
  rw [show a.len = a.members.length from ha.len_eq, show b.len = b.members.length from hb.len_eq,
    funext hb.contains_eq]
  exact ha.distinct.sameMembers_iff hb.distinct

/-- **A set is equal to a list of words if and only if it has these as its members.** -/
theorem Reachable.beqMembers_iff (h : s.Reachable) {l : List α} (hl : (⟨l⟩ : FiniteSet α).Distinct) :
    s.beqMembers l = true ↔ SameMembers s.members l := by
  have h := h.represents
  rw [beqMembers, containsAll, show s.len = s.members.length from h.len_eq, funext h.contains_eq]
  exact hl.sameMembers_swap_iff h.distinct

end WordSet

end LinearProbing
