import LinearProbing.Proofs.Contents

/-!
# LinearProbing.Proofs.SetAlgebra

**The bulk operations of a set are set algebra.** Three separate loops go through the members of a set: the
difference filters the one set into a new one, which grows; `eraseAll` removes the members of the other one by
one, and closes the gaps; `containsAll` only looks. For any two sets that are reached they agree
(`BulkOperations.Algebra`), whatever the tables look like, and for minus one as for every word.

Each of the loops does to a finite set what it should (`BulkOperations.Refines`). The algebra is then one of
lists without repetitions, and is proved once for the sets of words and the sets of keys.

The difference is a new set. The two sets that it is made from are only read.
-/

namespace LinearProbing

/-! ### Finite sets -/

namespace FiniteSet

variable {α : Type} [BEq α] [EquivBEq α] {S : FiniteSet α} {selects : α → Bool}

omit [EquivBEq α] in
/-- Without the members that are selected, a set contains the values that it contained and that are not
selected, if equal values are selected alike. -/
theorem contains_without (hselects : ∀ {x y}, (x == y) = true → selects x = selects y) (x : α) :
    (S.without selects).contains x = (S.contains x && ! selects x) := by
  rw [Bool.eq_iff_iff, Bool.and_eq_true, FiniteSet.contains, FiniteSet.contains,
    List.contains_iff_exists_mem_beq, List.contains_iff_exists_mem_beq]
  constructor
  · rintro ⟨y, hy, hxy⟩
    obtain ⟨hmem, hnot⟩ := List.mem_filter.mp hy
    rw [← hselects hxy] at hnot
    exact ⟨⟨y, hmem, hxy⟩, hnot⟩
  · rintro ⟨⟨y, hmem, hxy⟩, hnot⟩
    rw [hselects hxy] at hnot
    exact ⟨y, List.mem_filter.mpr ⟨hmem, hnot⟩, hxy⟩

/-- Equal values are members of the same sets. -/
theorem contains_congr (S : FiniteSet α) {x y : α} (h : (x == y) = true) :
    S.contains x = S.contains y := by
  rw [Bool.eq_iff_iff, FiniteSet.contains, FiniteSet.contains, List.contains_iff_exists_mem_beq,
    List.contains_iff_exists_mem_beq]
  exact exists_congr fun z => and_congr_right fun _ => by rw [BEq.congr_left h]

end FiniteSet

/-! ### What is said of the bulk operations -/

/-- The functions of a set that its algebra is about. -/
structure BulkOperations (τ α : Type) where
  len : τ → Nat
  members : τ → List α
  contains : τ → α → Bool
  containsAll : τ → List α → Bool
  eraseAll : τ → List α → Bool × τ
  difference : τ → τ → Change τ Unit
  beq : τ → τ → Bool

namespace BulkOperations

variable {τ α : Type} (O : BulkOperations τ α)

/-- The members of a set that are members of another one. -/
def shared (a b : τ) : List α := (O.members a).filter (O.contains b)

/-- **The laws of set algebra** for two sets. -/
structure Algebra (a b : τ) : Prop where
  /-- The difference is made. -/
  difference_ok : (O.difference a b).result = .ok ()
  /-- It has the members of the one set that are not in the other one, as they are stored there. -/
  difference_members :
    (O.members (O.difference a b).state).Perm ((O.members a).filter (! O.contains b ·))
  difference_contains : ∀ x, O.contains (O.difference a b).state x = (O.contains a x && ! O.contains b x)
  /-- To remove the members of another set is to leave the difference. -/
  eraseAll_beq : O.beq (O.eraseAll a (O.members b)).2 (O.difference a b).state = true
  /-- As many members go as the sets share, -/
  eraseAll_len : O.len a = O.len (O.eraseAll a (O.members b)).2 + (O.shared a b).length
  /-- and something is removed exactly if some value is a member of both. -/
  eraseAll_iff : (O.eraseAll a (O.members b)).1 = true ↔ ∃ x, O.contains a x = true ∧ O.contains b x = true
  /-- A set contains all members of another one exactly if nothing is left of it. -/
  containsAll_iff : O.containsAll a (O.members b) = true ↔ O.len (O.difference b a).state = 0
  len_eq : O.len a = O.len (O.difference a b).state + (O.shared a b).length
  /-- Sets that contain each other are equal. -/
  mutual_iff : (O.containsAll a (O.members b) = true ∧ O.containsAll b (O.members a) = true) ↔
    O.beq a b = true

/-- The functions of a set do what they should to the finite set that it stands for. -/
structure Refines [BEq α] (R : τ → FiniteSet α → Prop) : Prop where
  members {s : τ} {S : FiniteSet α} : R s S → (O.members s).Perm S.members
  distinct {s : τ} {S : FiniteSet α} : R s S → S.Distinct
  len_eq {s : τ} {S : FiniteSet α} : R s S → O.len s = S.size
  contains_eq {s : τ} {S : FiniteSet α} : R s S → O.contains s = S.contains
  containsAll_eq (s : τ) (xs : List α) : O.containsAll s xs = xs.all (O.contains s)
  eraseAll {s : τ} {S : FiniteSet α} (xs : List α) : R s S →
    (O.eraseAll s xs).1 = (S.eraseAll xs).1 ∧ R (O.eraseAll s xs).2 (S.eraseAll xs).2
  difference {s : τ} {S : FiniteSet α} (other : τ) : R s S →
    (O.difference s other).result ≠ .error .capacityOverflow →
      (O.difference s other).result = .ok () ∧
        R (O.difference s other).state (S.without (O.contains other))
  beq_eq (s t : τ) : O.beq s t = (O.len s == O.len t && O.containsAll t (O.members s))

namespace Refines

variable {O} [BEq α] [EquivBEq α] {R : τ → FiniteSet α → Prop} {a b s t : τ} {A B S T : FiniteSet α}

theorem beq_iff (h : O.Refines R) (hs : R s S) (ht : R t T) :
    O.beq s t = true ↔ SameMembers S.members T.members := by
  have hall : (O.members s).all T.contains = S.members.all T.contains := (h.members hs).all_eq
  rw [h.beq_eq, h.len_eq hs, h.len_eq ht, h.containsAll_eq, h.contains_eq ht, hall]
  exact (h.distinct hs).sameMembers_iff (h.distinct ht)

omit [EquivBEq α] in
theorem containsAll_iff (h : O.Refines R) (ha : R a A) (hb : R b B) :
    O.containsAll a (O.members b) = true ↔ ∀ x ∈ B.members, ∃ y ∈ A.members, (x == y) = true := by
  rw [h.containsAll_eq, h.contains_eq ha, (h.members hb).all_eq, List.all_eq_true]
  exact forall₂_congr fun x _ => List.contains_iff_exists_mem_beq

/-- **The bulk operations are set algebra**, as long as the new tables can grow. -/
theorem algebra (h : O.Refines R) (ha : R a A) (hb : R b B)
    (hab : (O.difference a b).result ≠ .error .capacityOverflow)
    (hba : (O.difference b a).result ≠ .error .capacityOverflow) : O.Algebra a b := by
  obtain ⟨hresult, hdifference⟩ := h.difference b ha hab
  obtain ⟨-, hreverse⟩ := h.difference a hb hba
  have hcontains : (O.members b).contains = O.contains b := by
    rw [h.contains_eq hb]
    exact funext fun x => (h.members hb).contains_eq
  -- what is removed one by one is what the difference leaves out
  obtain ⟨hremoved, herased⟩ := h.eraseAll (O.members b) ha
  rw [(h.distinct ha).eraseAll_eq, hcontains] at hremoved herased
  have hlen : O.len a = (A.without (O.contains b)).size + (O.shared a b).length := by
    have hsplit := List.length_eq_length_filter_add (l := A.members) (O.contains b)
    rw [h.len_eq ha, shared, ((h.members ha).filter _).length_eq]
    exact hsplit.trans (Nat.add_comm ..)
  have hcongr : ∀ {x y}, (x == y) = true → O.contains b x = O.contains b y := by
    rw [h.contains_eq hb]
    exact B.contains_congr
  exact
    { difference_ok := hresult
      difference_members := (h.members hdifference).trans ((h.members ha).filter _).symm
      difference_contains := by
        intro x
        rw [h.contains_eq hdifference, FiniteSet.contains_without hcongr, h.contains_eq ha]
      eraseAll_beq := (h.beq_iff herased hdifference).mpr (.refl beq_equivalence _)
      eraseAll_len := by rw [h.len_eq herased, hlen]
      eraseAll_iff := by
        rw [hremoved, List.any_eq_true, h.contains_eq ha]
        constructor
        · rintro ⟨x, hx, hmem⟩
          exact ⟨x, List.contains_iff_exists_mem_beq.mpr ⟨x, hx, BEq.rfl⟩, hmem⟩
        · rintro ⟨x, hx, hmem⟩
          obtain ⟨y, hy, hxy⟩ := List.contains_iff_exists_mem_beq.mp hx
          exact ⟨y, hy, hcongr hxy ▸ hmem⟩
      containsAll_iff := by
        rw [h.len_eq hreverse, FiniteSet.size, List.length_eq_zero_iff, FiniteSet.without,
          List.filter_eq_nil_iff, h.containsAll_eq, (h.members hb).all_eq, List.all_eq_true]
        simp
      len_eq := by rw [h.len_eq hdifference, hlen]
      mutual_iff := by
        rw [h.containsAll_iff ha hb, h.containsAll_iff hb ha, h.beq_iff ha hb]
        constructor
        · rintro ⟨hright, hleft⟩
          exact ⟨hleft, fun y hy => (hright y hy).imp fun x hx => ⟨hx.1, BEq.symm hx.2⟩⟩
        · rintro ⟨hleft, hright⟩
          exact ⟨fun y hy => (hright y hy).imp fun x hx => ⟨hx.1, BEq.symm hx.2⟩, hleft⟩ }

end Refines

end BulkOperations

/-! ### Both kinds of sets -/

namespace WordSet

variable {α : Type} [SignedWord α]

def bulkOperations : BulkOperations (WordSet α) α where
  len := len
  members := members
  contains := contains
  containsAll := containsAll
  eraseAll := eraseAll
  difference := difference
  beq := beq

theorem refines : (bulkOperations (α := α)).Refines (Represents False) where
  members h := h.members
  distinct h := h.distinct
  len_eq h := h.len_eq
  contains_eq h := funext h.contains_eq
  containsAll_eq _ _ := rfl
  eraseAll xs h := h.eraseAll xs
  difference other h := (h.difference other).succeeds
  beq_eq _ _ := rfl

end WordSet

namespace KeySet

variable {η α : Type} [Hasher η α] [BEq α]

def bulkOperations : BulkOperations (KeySet η α) α where
  len := MemberSet.len
  members := MemberSet.members
  contains := MemberSet.contains
  containsAll := MemberSet.containsAll
  eraseAll := MemberSet.eraseAll
  difference := MemberSet.difference
  beq := MemberSet.beq

/-- Each set may have a hasher of its own. -/
theorem refines [EquivBEq α] : (bulkOperations (η := η) (α := α)).Refines fun s S =>
    ∃ hasher : η, Hasher.Lawful hasher α ∧ MemberSet.Represents ⟨hasher⟩ False s S where
  members := fun ⟨_, _, h⟩ => h.members_perm
  distinct := fun ⟨_, _, h⟩ => h.distinct
  len_eq := fun ⟨_, _, h⟩ => h.len_eq
  contains_eq := fun ⟨_, hlawful, h⟩ => funext (h.contains_eq (hashedMember_lawful hlawful))
  containsAll_eq _ _ := rfl
  eraseAll xs := by
    rintro ⟨hasher, hlawful, h⟩
    obtain ⟨hremoved, hstate⟩ := MemberSet.Represents.eraseAll (hashedMember_lawful hlawful) xs h
    exact ⟨hremoved, hasher, hlawful, hstate⟩
  difference other := by
    rintro ⟨hasher, hlawful, h⟩ hno
    obtain ⟨hresult, hstate⟩ := (h.difference (hashedMember_lawful hlawful)
      (fun _ _ => EntryLayout.anyEntry ..) other).succeeds hno
    exact ⟨hresult, hasher, hlawful, hstate⟩
  beq_eq _ _ := rfl

end KeySet

/-- **The bulk operations are set algebra** for any two sets that are reached, as long as the tables of their
differences can grow. Sets of keys may have different hashers. -/
theorem setAlgebra_of_reachable :
    (∀ {α : Type} [SignedWord α] {a b : WordSet α}, a.Reachable → b.Reachable →
      (a.difference b).result ≠ .error .capacityOverflow →
      (b.difference a).result ≠ .error .capacityOverflow → WordSet.bulkOperations.Algebra a b) ∧
    (∀ {η α : Type} [Hasher η α] [BEq α] [EquivBEq α] {a b : KeySet η α}, KeySet.Reachable a →
      KeySet.Reachable b → (MemberSet.difference a b).result ≠ .error .capacityOverflow →
      (MemberSet.difference b a).result ≠ .error .capacityOverflow →
      KeySet.bulkOperations.Algebra a b) := by
  constructor
  · intro α _ a b ha hb
    exact WordSet.refines.algebra ha.represents hb.represents
  · intro η α _ _ _ a b ha hb
    exact KeySet.refines.algebra ha.represents hb.represents

/-- Minus one is a member of both sets of words, and the sets of keys have different hashers. The first set of
each pair is so large that the table of its difference grows. -/
theorem setAlgebra_of_reachable_minusOne :
    let words : WordSet Int32 := finalState WordSet.Operation.perform
      [.extend [-1, 1, 2, 3, 4, 5, 6, 7, 14, 30], .erase 3] .empty
    let otherWords : WordSet Int32 := finalState WordSet.Operation.perform
      [.extend [14, -1, 8], .compact] .empty
    let keys : KeySet HasherChoice String := finalState MemberSet.Operation.perform
      [.extend ["a", "b", "c", "d", "e", "f", "g"]] (.empty ⟨.byteSum⟩)
    let otherKeys : KeySet HasherChoice String := finalState MemberSet.Operation.perform
      [.extend ["c", "x", "y"], .take "x"] (.empty ⟨.constant 7⟩)
    (words.Reachable ∧ otherWords.Reachable ∧ (words.difference otherWords).result ≠ .error .capacityOverflow ∧
      (otherWords.difference words).result ≠ .error .capacityOverflow ∧
      WordSet.bulkOperations.Algebra words otherWords) ∧
    (KeySet.Reachable keys ∧ KeySet.Reachable otherKeys ∧
      (MemberSet.difference keys otherKeys).result ≠ .error .capacityOverflow ∧
      (MemberSet.difference otherKeys keys).result ≠ .error .capacityOverflow ∧
      KeySet.bulkOperations.Algebra keys otherKeys) := by
  intro words otherWords keys otherKeys
  constructor
  · have ha : words.Reachable := ⟨{}, _, WordSet.ofConfig_default, .run (by decide +kernel)⟩
    have hb : otherWords.Reachable := ⟨{}, _, WordSet.ofConfig_default, .run (by decide +kernel)⟩
    have hab : (words.difference otherWords).result ≠ .error .capacityOverflow := by decide +kernel
    have hba : (otherWords.difference words).result ≠ .error .capacityOverflow := by decide +kernel
    clear_value words otherWords
    exact ⟨ha, hb, hab, hba, setAlgebra_of_reachable.1 ha hb hab hba⟩
  · have hlawful : ∀ hasher : HasherChoice, Hasher.Lawful hasher String :=
      fun hasher a b h => by rw [eq_of_beq h]
    have ha : KeySet.Reachable keys :=
      ⟨.byteSum, {}, _, hlawful _, MemberSet.ofConfig_default _, .run (by decide +kernel)⟩
    have hb : KeySet.Reachable otherKeys :=
      ⟨.constant 7, {}, _, hlawful _, MemberSet.ofConfig_default _, .run (by decide +kernel)⟩
    have hab : (MemberSet.difference keys otherKeys).result ≠ .error .capacityOverflow := by
      decide +kernel
    have hba : (MemberSet.difference otherKeys keys).result ≠ .error .capacityOverflow := by
      decide +kernel
    clear_value keys otherKeys
    exact ⟨ha, hb, hab, hba, setAlgebra_of_reachable.2 ha hb hab hba⟩

end LinearProbing
