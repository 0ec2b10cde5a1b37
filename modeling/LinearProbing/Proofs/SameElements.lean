import LinearProbing.Proofs.FiniteMap
import Mathlib.Data.List.Forall2

/-!
# LinearProbing.Proofs.SameElements

**Lists with the same elements** up to a relation `r`, whatever their order (`SameElements`). If each of two
lists holds no two elements that are related, then having the same elements is to have as many, and those of
the one in the other (`Apart.sameElements_iff`): it is enough to look in one direction. For the elements can
then be matched one to one (`SameElements.exists_matching`), so that sums over them are equal too
(`SameElements.foldl_add_eq`).

The entries of maps are compared by their keys and values (`SameEntry`). Looking up the entries of one map in
another decides whether they hold the same (`FiniteMap.Distinct.sameEntries_iff`), and so it is for sets.
-/

namespace LinearProbing

/-- Each element of one list is related to one of the other. -/
structure SameElements {α : Type} (r : α → α → Prop) (a b : List α) : Prop where
  left : ∀ x ∈ a, ∃ y ∈ b, r x y
  right : ∀ y ∈ b, ∃ x ∈ a, r x y

/-- No two elements of a list are related. -/
def Apart {α : Type} (r : α → α → Prop) (l : List α) : Prop := l.Pairwise fun x y => ¬ r x y

section Relation

variable {α β : Type} {r : α → α → Prop} {a b c : List α}

namespace SameElements

theorem refl (hr : Equivalence r) (l : List α) : SameElements r l l :=
  ⟨fun x hx => ⟨x, hx, hr.refl x⟩, fun x hx => ⟨x, hx, hr.refl x⟩⟩

theorem symm (hr : Equivalence r) (h : SameElements r a b) : SameElements r b a :=
  ⟨fun x hx => (h.right x hx).imp fun _ hy => ⟨hy.1, hr.symm hy.2⟩,
    fun y hy => (h.left y hy).imp fun _ hx => ⟨hx.1, hr.symm hx.2⟩⟩

theorem trans (hr : Equivalence r) (hab : SameElements r a b)
    (hbc : SameElements r b c) : SameElements r a c := by
  constructor
  · intro x hx
    obtain ⟨y, hy, hxy⟩ := hab.left x hx
    obtain ⟨z, hz, hyz⟩ := hbc.left y hy
    exact ⟨z, hz, hr.trans hxy hyz⟩
  · intro z hz
    obtain ⟨y, hy, hyz⟩ := hbc.right z hz
    obtain ⟨x, hx, hxy⟩ := hab.right y hy
    exact ⟨x, hx, hr.trans hxy hyz⟩

/-- The order of a list does not matter. -/
theorem of_perm (hr : Equivalence r) (h : a.Perm b) : SameElements r a b :=
  ⟨fun x hx => ⟨x, h.mem_iff.mp hx, hr.refl x⟩, fun x hx => ⟨x, h.mem_iff.mpr hx, hr.refl x⟩⟩

/-- Elements are compared after a function was applied to them. -/
theorem map_iff {f : β → α} {a b : List β} :
    SameElements r (a.map f) (b.map f) ↔ SameElements (fun x y => r (f x) (f y)) a b := by
  constructor
  · rintro ⟨hleft, hright⟩
    simp only [List.mem_map, exists_exists_and_eq_and, forall_exists_index, and_imp,
      forall_apply_eq_imp_iff₂] at hleft hright
    exact ⟨hleft, hright⟩
  · rintro ⟨hleft, hright⟩
    constructor <;>
      simpa only [List.mem_map, exists_exists_and_eq_and, forall_exists_index, and_imp,
        forall_apply_eq_imp_iff₂]

end SameElements

/-- The elements of a list that holds no two related ones are matched with as many of another. -/
theorem Apart.exists_matching (hr : Equivalence r) (ha : Apart r a) (hsub : ∀ x ∈ a, ∃ y ∈ b, r x y) :
    ∃ matched rest, b.Perm (matched ++ rest) ∧ List.Forall₂ r a matched := by
  induction a generalizing b with
  | nil => exact ⟨[], b, List.Perm.refl _, .nil⟩
  | cons x others ih =>
      obtain ⟨hx, hothers⟩ := List.pairwise_cons.mp ha
      obtain ⟨⟨y, hy, hxy⟩, hsub⟩ := List.forall_mem_cons.mp hsub
      obtain ⟨before, after, rfl⟩ := List.append_of_mem hy
      -- the element that is matched with `x` is matched with no other one
      have hleft : ∀ z ∈ others, ∃ w ∈ before ++ after, r z w := by
        intro z hz
        obtain ⟨w, hw, hzw⟩ := hsub z hz
        refine ⟨w, ?_, hzw⟩
        rcases List.mem_cons.mp (List.perm_middle.mem_iff.mp hw) with rfl | hw
        · exact absurd (hr.trans hxy (hr.symm hzw)) (hx z hz)
        · exact hw
      obtain ⟨matched, rest, hperm, hmatched⟩ := ih hothers hleft
      exact ⟨y :: matched, rest, List.perm_middle.trans (hperm.cons y), .cons hxy hmatched⟩

/-- **One direction is enough** for lists of the same length. -/
theorem Apart.exists_matching_of_length (hr : Equivalence r) (ha : Apart r a) (hlength : b.length ≤ a.length)
    (hsub : ∀ x ∈ a, ∃ y ∈ b, r x y) : ∃ matched, b.Perm matched ∧ List.Forall₂ r a matched := by
  obtain ⟨matched, rest, hperm, hmatched⟩ := ha.exists_matching hr hsub
  have hrest : rest = [] := by
    have hsum := hperm.length_eq
    rw [List.length_append, ← hmatched.length_eq] at hsum
    exact List.eq_nil_of_length_eq_zero (by omega)
  rw [hrest, List.append_nil] at hperm
  exact ⟨matched, hperm, hmatched⟩

/-- The same elements can be matched one to one. -/
theorem SameElements.exists_matching (hr : Equivalence r) (ha : Apart r a) (hb : Apart r b)
    (h : SameElements r a b) : ∃ matched, b.Perm matched ∧ List.Forall₂ r a matched := by
  obtain ⟨matched, rest, hperm, hmatched⟩ := hb.exists_matching hr (h.symm hr).left
  have hlength : b.length ≤ a.length := by
    rw [hperm.length_eq, List.length_append, ← hmatched.length_eq]
    exact Nat.le_add_right ..
  exact ha.exists_matching_of_length hr hlength h.left

/-- **Having the same elements is to have as many, and those of the one in the other.** -/
theorem Apart.sameElements_iff (hr : Equivalence r) (ha : Apart r a) (hb : Apart r b) :
    SameElements r a b ↔ a.length = b.length ∧ ∀ x ∈ a, ∃ y ∈ b, r x y := by
  constructor
  · intro h
    obtain ⟨matched, hperm, hmatched⟩ := h.exists_matching hr ha hb
    exact ⟨hmatched.length_eq.trans hperm.length_eq.symm, h.left⟩
  · rintro ⟨hlength, hleft⟩
    refine ⟨hleft, fun y hy => ?_⟩
    obtain ⟨matched, hperm, hmatched⟩ :=
      ha.exists_matching_of_length hr (Nat.le_of_eq hlength.symm) hleft
    -- every element of the other list has been matched
    obtain ⟨i, hi, rfl⟩ := List.mem_iff_getElem.mp (hperm.mem_iff.mp hy)
    have hia : i < a.length := hmatched.length_eq ▸ hi
    exact ⟨a[i], List.getElem_mem hia, hmatched.get hia hi⟩

/-- **Comparing lengths and looking in one direction decides** whether two lists have the same elements. -/
theorem Apart.check_iff (hr : Equivalence r) (ha : Apart r a) (hb : Apart r b) {has : α → Bool}
    (hhas : ∀ x, has x = true ↔ ∃ y ∈ b, r x y) :
    (a.length == b.length && a.all has) = true ↔ SameElements r a b := by
  rw [ha.sameElements_iff hr hb, Bool.and_eq_true, beq_iff_eq, List.all_eq_true]
  simp only [hhas]

/-- The same with the lists in the other order. -/
theorem Apart.check_swap_iff (hr : Equivalence r) (ha : Apart r a) (hb : Apart r b) {has : α → Bool}
    (hhas : ∀ x, has x = true ↔ ∃ y ∈ b, r x y) :
    (b.length == a.length && a.all has) = true ↔ SameElements r b a := by
  rw [BEq.comm, ha.check_iff hr hb hhas]
  exact ⟨.symm hr, .symm hr⟩

/-- **Sums over the same elements are equal.** -/
theorem SameElements.foldl_add_eq (hr : Equivalence r) (ha : Apart r a) (hb : Apart r b)
    (h : SameElements r a b) {f : α → UInt64} (hf : ∀ {x y}, r x y → f x = f y) (start : UInt64) :
    a.foldl (fun acc x => acc + f x) start = b.foldl (fun acc x => acc + f x) start := by
  obtain ⟨matched, hperm, hmatched⟩ := h.exists_matching hr ha hb
  have hcomm : ∀ x ∈ b, ∀ y ∈ b, ∀ acc : UInt64, acc + f x + f y = acc + f y + f x :=
    fun x _ y _ acc => by rw [UInt64.add_assoc, UInt64.add_comm (f x), ← UInt64.add_assoc]
  rw [hperm.foldl_eq' hcomm start]
  clear h hperm ha hb
  induction hmatched generalizing start with
  | nil => rfl
  | cons hxy _ ih => rw [List.foldl_cons, List.foldl_cons, hf hxy, ih]

end Relation

/-! ### Entries of maps -/

/-- Equal keys and equal values. -/
def SameEntry {κ β : Type} [BEq κ] [BEq β] (e f : κ × β) : Prop :=
  (e.1 == f.1) = true ∧ (e.2 == f.2) = true

/-- The same keys with equal values. -/
abbrev SameEntries {κ β : Type} [BEq κ] [BEq β] : List (κ × β) → List (κ × β) → Prop :=
  SameElements SameEntry

/-- Equal members. -/
abbrev SameMembers {α : Type} [BEq α] : List α → List α → Prop :=
  SameElements fun x y => (x == y) = true

instance optionEquivBEq {α : Type} [BEq α] [EquivBEq α] : EquivBEq (Option α) where
  rfl {x} :=
    match x with
    | none => rfl
    | some x => BEq.refl x
  symm {x y} h :=
    match x, y, h with
    | none, none, _ => rfl
    | some x, some y, h => (BEq.symm h : (y == x) = true)
  trans {x y z} h h' :=
    match x, y, z, h, h' with
    | none, none, none, _, _ => rfl
    | some x, some y, some z, h, h' => (BEq.trans (b := y) h h' : (x == z) = true)

section Entries

variable {κ β : Type} [BEq κ] [BEq β] [EquivBEq κ] [EquivBEq β] {M : FiniteMap κ β}

theorem sameEntry_equivalence : Equivalence (SameEntry (κ := κ) (β := β)) where
  refl _ := ⟨BEq.rfl, BEq.rfl⟩
  symm h := ⟨BEq.symm h.1, BEq.symm h.2⟩
  trans h h' := ⟨BEq.trans h.1 h'.1, BEq.trans h.2 h'.2⟩

omit [EquivBEq κ] [EquivBEq β] in
/-- Entries with distinct keys are apart. -/
theorem FiniteMap.Distinct.apart (h : M.Distinct) : Apart SameEntry M.entries :=
  List.Pairwise.imp (fun hne hsame => by simp [hsame.1] at hne) h

/-- The value under the key of an entry is the value of the entry, if there is an equal entry. -/
theorem FiniteMap.Distinct.get?_beq_iff (h : M.Distinct) (e : κ × β) :
    (M.get? e.1 == some e.2) = true ↔ ∃ f ∈ M.entries, SameEntry e f := by
  constructor
  · intro hget
    rw [get?_eq] at hget
    cases hfind : M.find? e.1 with
    | none =>
        rw [hfind] at hget
        cases hget
    | some f =>
        rw [hfind] at hget
        exact ⟨f, List.mem_of_find?_eq_some hfind, BEq.symm (key_of_find? hfind), BEq.symm hget⟩
  · rintro ⟨f, hf, hkey, hvalue⟩
    have hstored : (f.2 == e.2) = true := BEq.symm hvalue
    rw [get?_eq, M.find?_congr hkey, h.find?_eq hf]
    exact hstored

/-- **Looking up the entries of one map in another, and comparing sizes, decides** whether they hold the
same. -/
theorem FiniteMap.Distinct.sameEntries_iff {N : FiniteMap κ β} (hM : M.Distinct) (hN : N.Distinct) :
    (M.entries.length == N.entries.length && M.entries.all fun e => N.get? e.1 == some e.2) = true ↔
      SameEntries M.entries N.entries :=
  hM.apart.check_iff sameEntry_equivalence hN.apart hN.get?_beq_iff

/-- The same with the maps in the other order. -/
theorem FiniteMap.Distinct.sameEntries_swap_iff {N : FiniteMap κ β} (hM : M.Distinct) (hN : N.Distinct) :
    (N.entries.length == M.entries.length && M.entries.all fun e => N.get? e.1 == some e.2) = true ↔
      SameEntries N.entries M.entries :=
  hM.apart.check_swap_iff sameEntry_equivalence hN.apart hN.get?_beq_iff

end Entries

/-! ### Members of sets -/

theorem beq_equivalence {α : Type} [BEq α] [EquivBEq α] : Equivalence fun x y : α => (x == y) = true where
  refl _ := BEq.rfl
  symm h := BEq.symm h
  trans h h' := BEq.trans h h'

section Members

variable {α : Type} [BEq α] {S T : FiniteSet α}

/-- Members that are distinct are apart. -/
theorem FiniteSet.Distinct.apart (h : S.Distinct) : Apart (fun x y => (x == y) = true) S.members :=
  List.Pairwise.imp (fun hne hsame => by simp [hsame] at hne) h

variable [EquivBEq α]

/-- **Looking up the members of one set in another, and comparing sizes, decides** whether they are the
same. -/
theorem FiniteSet.Distinct.sameMembers_iff (hS : S.Distinct) (hT : T.Distinct) :
    (S.members.length == T.members.length && S.members.all T.contains) = true ↔
      SameMembers S.members T.members :=
  hS.apart.check_iff beq_equivalence hT.apart fun _ => List.contains_iff_exists_mem_beq

/-- The same with the sets in the other order. -/
theorem FiniteSet.Distinct.sameMembers_swap_iff (hS : S.Distinct) (hT : T.Distinct) :
    (T.members.length == S.members.length && S.members.all T.contains) = true ↔
      SameMembers T.members S.members :=
  hS.apart.check_swap_iff beq_equivalence hT.apart fun _ => List.contains_iff_exists_mem_beq

end Members

end LinearProbing
