import LinearProbing.Proofs.Capacity.Containers
import LinearProbing.Proofs.LawfulSlots
import LinearProbing.Proofs.RecencyCache.Links

/-!
# LinearProbing.Proofs.RecencyCache.Index

**The index of a cache** maps the keys of the list to the handles of their nodes, and no other keys
(`Indexes`). It is a map of the standard load factor, and holds up to `indexLimit` entries: only then is
there no table to which it could grow (`Indexes.insert`).
-/

namespace LinearProbing

namespace RecencyCache

/-- The most entries of a table with the standard load factor. -/
def indexLimit : Nat := threshold maxCapacity defaultLoadFactor

theorem two_pow_lt_indexLimit : 2 ^ 61 < indexLimit := by decide +kernel

variable {κ ν θ : Type} [SignedWord κ]

/-- The entry of the index for an entry of the list. -/
def Linked.indexed (x : Linked κ ν θ) : κ × Option θ := (x.key, some x.handle)

/-- An index maps the keys of a list to the handles of their nodes. -/
structure Indexes (index : WordKeyMap κ θ) (l : List (Linked κ ν θ)) : Prop where
  represents : index.Represents {} .nonNull True ⟨l.map Linked.indexed⟩
  loadFactor : index.table.sizing.loadFactor = defaultLoadFactor

variable {index : WordKeyMap κ θ} {a b l : List (Linked κ ν θ)} {x : Linked κ ν θ} {key : κ}

theorem indexes_empty : Indexes (.empty .nonNull {} : WordKeyMap κ θ) ([] : List (Linked κ ν θ)) :=
  ⟨ValueMap.represents_ofSizing (wordSlot_lawful {}) Sizing.valid_standard _, rfl⟩

namespace Indexes

theorem perm (h : Indexes index a) (hperm : a.Perm b) : Indexes index b :=
  ⟨h.represents.perm (hperm.map _), h.loadFactor⟩

theorem fits (h : Indexes index l) : index.table.Fits :=
  ⟨h.represents.table.sizing, h.represents.table.len_le trivial⟩

theorem len_eq (h : Indexes index l) : index.table.len = l.length :=
  h.represents.table.len_eq_length.trans (List.length_map _)

theorem len_le (h : Indexes index l) : l.length ≤ indexLimit := by
  have hfits := h.fits
  obtain ⟨k, -, hk, hcapacity⟩ := hfits.sizing.capacity
  rw [← h.len_eq, indexLimit, ← h.loadFactor]
  refine hfits.len_le.trans ?_
  rw [hfits.sizing.threshold, hcapacity]
  exact threshold_mono hfits.sizing.loadFactor hk

/-- No key occurs twice. -/
theorem distinct (h : Indexes index l) : l.Pairwise fun x y => x.key ≠ y.key := by
  have hdistinct : (l.map Linked.indexed).Pairwise fun x y => (x.1 == y.1) = false :=
    h.represents.distinct
  exact (List.pairwise_map.mp hdistinct).imp fun hne => ne_of_beq_false hne

/-- The key of an entry of the list. -/
theorem present (h : Indexes index (a ++ x :: b)) :
    FiniteMap.Present ⟨(a ++ x :: b).map Linked.indexed⟩ x.key x.key (some x.handle)
      ((a ++ b).map Linked.indexed) where
  split := List.perm_middle.map _
  same := beq_self_eq_true _
  others e he := by
    obtain ⟨y, hy, rfl⟩ := List.mem_map.mp he
    have hdistinct := List.pairwise_middle (fun hne => Ne.symm hne) |>.mp h.distinct
    exact beq_eq_false_iff_ne.mpr ((List.pairwise_cons.mp hdistinct).1 y hy).symm

theorem absent (habsent : ∀ x ∈ l, x.key ≠ key) :
    FiniteMap.Absent ⟨l.map Linked.indexed⟩ key := by
  intro e he
  obtain ⟨y, hy, rfl⟩ := List.mem_map.mp he
  exact beq_eq_false_iff_ne.mpr (habsent y hy)

theorem get?_of_present (h : Indexes index (a ++ x :: b)) : index.get? x.key = some x.handle := by
  rw [h.represents.get?_eq (wordSlot_lawful {}), ValueMap.read_of_present h.present]

theorem get?_of_absent (h : Indexes index l) (habsent : ∀ x ∈ l, x.key ≠ key) :
    index.get? key = none := by
  rw [h.represents.get?_eq (wordSlot_lawful {}), ValueMap.read_of_absent (absent habsent)]

/-- **A key is in the list, or the index does not know it.** -/
theorem get?_cases (h : Indexes index l) (key : κ) :
    (∃ a x b, l = a ++ x :: b ∧ x.key = key ∧ index.get? key = some x.handle) ∨
      ((∀ x ∈ l, x.key ≠ key) ∧ index.get? key = none) := by
  by_cases hmem : ∃ x ∈ l, x.key = key
  · obtain ⟨x, hx, rfl⟩ := hmem
    obtain ⟨a, b, rfl⟩ := List.append_of_mem hx
    exact Or.inl ⟨a, x, b, rfl, rfl, h.get?_of_present⟩
  · have habsent : ∀ x ∈ l, x.key ≠ key := fun x hx heq => hmem ⟨x, hx, heq⟩
    exact Or.inr ⟨habsent, h.get?_of_absent habsent⟩

theorem contains_eq (h : Indexes index l) (key : κ) :
    index.contains key = (l.map Linked.indexed).any (·.1 == key) :=
  h.represents.contains_eq (wordSlot_lawful {}) key

theorem erase (h : Indexes index (a ++ x :: b)) : Indexes (index.erase x.key).2 (a ++ b) :=
  ⟨(h.represents.erase (wordSlot_lawful {}) x.key).2.perm h.present.erase,
    (congrArg Sizing.loadFactor (ValueMap.keeps_eraseEntry index x.key).sizing).trans h.loadFactor⟩

theorem clear (h : Indexes index l) : Indexes index.clear ([] : List (Linked κ ν θ)) :=
  ⟨h.represents.clear (wordSlot_lawful {}),
    (congrArg Sizing.loadFactor (Table.keeps_clearWith _ index.table).sizing).trans h.loadFactor⟩

/-- **A new key is added**, unless the index holds as many as a table can. -/
theorem insert (h : Indexes index l) (habsent : ∀ y ∈ l, y.key ≠ x.key) :
    (∃ old, (index.insert x.key x.handle).result = .ok old ∧
        Indexes (index.insert x.key x.handle).state (x :: l)) ∨
      ((index.insert x.key x.handle).result = .error .capacityOverflow ∧ l.length = indexLimit) := by
  have hgains := ValueMap.gains_store h.fits x.key (some x.handle)
  rcases h.represents.store (wordSlot_lawful {}) x.key (some x.handle) with hagrees | ⟨hoverflow, -⟩
  · refine Or.inl ⟨_, hagrees.result, ?_, ?_⟩
    · refine hagrees.state.perm ?_
      rw [ValueMap.Spec.store, Change.done, (absent habsent).insert]
      rfl
    · rcases hgains with hoverflow | ⟨-, hgains⟩
      · exact absurd (hagrees.result.symm.trans hoverflow) (by simp [ValueMap.Spec.store, Change.done])
      · exact hgains.loadFactor.trans h.loadFactor
  · refine Or.inr ⟨hoverflow, ?_⟩
    rw [← h.len_eq, indexLimit, ← h.loadFactor]
    exact ValueMap.len_eq_of_store h.fits hoverflow

end Indexes

end RecencyCache

end LinearProbing
