import LinearProbing.Hash.Choice
import LinearProbing.Proofs.Reachable

/-!
# LinearProbing.Proofs.SetRefinement

**Both sets refine a finite set.** Whatever is done to a new set, every call gives the result that it gives on
a plain finite set of distinct members, and the members are the same after every step. In a set of words,
minus one is a member like any other, though it is not in the table; in a set of keys, a member that is equal
to a new one stays, and is given back as it was stored.

What a set does with the members of another one is said in terms of these members (`Operation.Means`): the
other set finds exactly them, if it is reachable.
-/

namespace LinearProbing

namespace FiniteSet

variable {α : Type} [BEq α]

/-- A call on a set, which counts and lists its members, does what a call on a finite set does. -/
structure Matches {τ : Type} (len : τ → Nat) (members : τ → List α) (c : MemberSet.OperationCall τ α)
    (d : MemberSet.OperationCall (FiniteSet α) α) : Prop where
  result : c.result = d.result
  calls : c.calls = d.calls
  len : len c.state = d.state.size
  distinct : d.state.Distinct
  members : (members c.state).Perm d.state.members

variable [EquivBEq α] {s : FiniteSet α} {x : α}

theorem Distinct.present_or_absent (h : s.Distinct) (x : α) :
    (∃ y rest, s.Present x y rest) ∨ s.Absent x := by
  cases hfind : s.find? x with
  | none =>
      refine Or.inr fun y hy => ?_
      simpa using List.find?_eq_none.mp hfind y hy
  | some y =>
      have hsame : (y == x) = true := List.find?_some (p := fun z => z == x) hfind
      obtain ⟨rest, hpresent⟩ := h.exists_present (List.mem_of_find?_eq_some hfind)
      refine Or.inl ⟨y, rest, hpresent.split, hsame, fun z hz => ?_⟩
      rw [← BEq.congr_right hsame]
      exact hpresent.others z hz

omit [EquivBEq α] in
theorem Distinct.erase (h : s.Distinct) (x : α) : (s.erase x).Distinct := List.Pairwise.filter _ h

/-- Some member is in a list exactly if the first value of the list is a member, or another member is in the
rest of the list. -/
theorem Distinct.any_contains_cons (h : s.Distinct) (x : α) (rest : List α) :
    s.members.any (x :: rest).contains =
      (s.contains x || (s.erase x).members.any rest.contains) := by
  have hcontains : ∀ z, (x :: rest).contains z = (z == x || rest.contains z) :=
    fun z => List.contains_cons
  rcases h.present_or_absent x with ⟨y, others, hpresent⟩ | habsent
  · rw [hpresent.contains, Bool.true_or, hpresent.split.any_eq, List.any_cons, hcontains, hpresent.same,
      Bool.true_or, Bool.true_or]
  · rw [habsent.contains, habsent.erase, Bool.false_or, Bool.eq_iff_iff, List.any_eq_true, List.any_eq_true]
    exact exists_congr fun z => and_congr_right fun hz => by rw [hcontains, habsent z hz, Bool.false_or]

/-- Removing the values of a list one by one removes the members that are in the list. -/
theorem Distinct.eraseAll_eq (h : s.Distinct) (xs : List α) :
    s.eraseAll xs = (s.members.any xs.contains, s.without xs.contains) := by
  induction xs generalizing s with
  | nil =>
      have hnone : ([] : List α).contains = fun _ => false := rfl
      simp [eraseAll, without, hnone]
  | cons x rest ih =>
      have hwithout : (s.erase x).without rest.contains = s.without (x :: rest).contains := by
        refine congrArg mk ((List.filter_filter ..).trans (List.filter_congr fun z _ => ?_))
        rw [List.contains_cons, Bool.not_or, Bool.and_comm]
      rw [eraseAll, ih (h.erase x), h.any_contains_cons x rest, ← hwithout]

end FiniteSet

/-! ### Sets of words -/

namespace WordSet

variable {α : Type} [SignedWord α]

/-- The sets of words that are reached from a new one. -/
def Reachable (s : WordSet α) : Prop :=
  ∃ config new, ofConfig config = .ok new ∧
    Reaches (fun s => s.inner.table) Operation.perform new s

/-- What an operation is to do to a finite set, with the members of another set in place of the set. -/
def Operation.Means (op : Operation α) (S : FiniteSet α)
    (d : MemberSet.OperationCall (FiniteSet α) α) : Prop :=
  match op with
  | .eraseAll xs => d = .done (S.without xs.contains) (.flag (S.members.any xs.contains))
  | .difference other => d = .done (S.without other.members.contains) .nothing
  | op => op.Allows S d

/-- A set stands for the members that it has. -/
theorem Reachable.represents {s : WordSet α} (h : s.Reachable) : s.Represents False ⟨s.members⟩ := by
  obtain ⟨config, new, hnew, hreached⟩ := h
  obtain ⟨S, hS⟩ := exists_of_reaches hnew hreached
  exact ⟨hS.inner, List.Perm.refl _⟩

theorem Reachable.contains_eq {s : WordSet α} (h : s.Reachable) : s.contains = s.members.contains :=
  funext h.represents.contains_eq

theorem Represents.means {within : Prop} {s : WordSet α} {S : FiniteSet α} (h : s.Represents within S)
    (op : Operation α) :
    ∃ d, ((∀ other, op = .difference other → other.contains = other.members.contains) → op.Means S d) ∧
      (op.perform s).Tracks (Represents within) (Overfull within) d := by
  obtain ⟨d, hallowed, htracks⟩ := h.perform op
  refine ⟨d, fun hother => ?_, htracks⟩
  cases op with
  | eraseAll xs =>
      obtain ⟨order, -, rfl⟩ := hallowed
      rw [Operation.Means, Operation.specify, h.distinct.eraseAll_eq xs]
  | difference other =>
      obtain ⟨order, -, rfl⟩ := hallowed
      rw [Operation.Means, Operation.specify, hother other rfl]
  | _ => exact hallowed

end WordSet

/-! ### Sets of keys -/

namespace MemberSet

variable {σ η α : Type} [MemberSlot σ α] [KeyHash η α] [BEq α]

/-- What an operation is to do to a finite set, with the members of another set in place of the set. -/
def Operation.Means (op : Operation σ η α) (S : FiniteSet α) (d : OperationCall (FiniteSet α) α) : Prop :=
  match op with
  | .eraseAll xs => d = .done (S.without xs.contains) (.flag (S.members.any xs.contains))
  | .difference other => d = .done (S.without other.members.contains) .nothing
  | op => op.Allows S d

theorem Represents.means [EquivBEq α] {hashing : η} (hE : LawfulSlots σ hashing EntryLayout.AnyEntry)
    {within : Prop} {s : MemberSet σ η α} {S : FiniteSet α} (h : s.Represents hashing within S)
    (op : Operation σ η α) :
    ∃ d, ((∀ other, op = .difference other → other.contains = other.members.contains) → op.Means S d) ∧
      (op.perform s).Tracks (Represents hashing within) (Overfull hashing within) d := by
  obtain ⟨d, hallowed, htracks⟩ := h.perform hE op
  refine ⟨d, fun hother => ?_, htracks⟩
  cases op with
  | eraseAll xs =>
      obtain ⟨order, -, rfl⟩ := hallowed
      rw [Operation.Means, Operation.specify, h.distinct.eraseAll_eq xs]
  | difference other =>
      obtain ⟨order, -, rfl⟩ := hallowed
      rw [Operation.Means, Operation.specify, hother other rfl]
  | _ => exact hallowed

end MemberSet

namespace KeySet

variable {η α : Type} [Hasher η α] [BEq α]

/-- The sets of keys that are reached from a new one, with any lawful hasher. -/
def Reachable (s : KeySet η α) : Prop :=
  ∃ (hasher : η) (config : TableConfig) (new : KeySet η α), Hasher.Lawful hasher α ∧
    MemberSet.ofConfig config ⟨hasher⟩ = .ok new ∧
      Reaches MemberSet.table MemberSet.Operation.perform new s

/-- A set stands for the members that it has. -/
theorem Reachable.represents [EquivBEq α] {s : KeySet η α} (h : Reachable s) :
    ∃ hasher : η, Hasher.Lawful hasher α ∧ MemberSet.Represents ⟨hasher⟩ False s ⟨s.members⟩ := by
  obtain ⟨hasher, config, new, hlawful, hnew, hreached⟩ := h
  obtain ⟨S, hS⟩ := MemberSet.exists_of_reaches (hashedMember_lawful hlawful) hnew hreached
  exact ⟨hasher, hlawful, hS.perm hS.members_perm.symm⟩

theorem Reachable.contains_eq [EquivBEq α] {s : KeySet η α} (h : Reachable s) :
    MemberSet.contains s = s.members.contains := by
  obtain ⟨_, hlawful, hs⟩ := h.represents
  exact funext (hs.contains_eq (hashedMember_lawful hlawful))

end KeySet

/-! ### Every run -/

/-- **Every run of a set is a run of a finite set**, as long as no insertion fails to grow the table. -/
theorem run_refines_finiteSet :
    (∀ {α : Type} [SignedWord α] {config : TableConfig} {s : WordSet α},
      WordSet.ofConfig config = .ok s →
      ∀ ops : List (WordSet.Operation α), (∀ other, .difference other ∈ ops → other.Reachable) →
        NoOverflow (trace WordSet.Operation.perform ops s) →
        ∃ calls, Runs WordSet.Operation.Means ops {} calls ∧
          List.Forall₂ (FiniteSet.Matches WordSet.len WordSet.members)
            (trace WordSet.Operation.perform ops s) calls) ∧
    (∀ {η α : Type} [Hasher η α] [BEq α] [EquivBEq α] {hasher : η}, Hasher.Lawful hasher α →
      ∀ {config : TableConfig} {s : KeySet η α}, MemberSet.ofConfig config ⟨hasher⟩ = .ok s →
      ∀ ops : List (MemberSet.Operation (Option (HashedMember α)) (Mixed η) α),
        (∀ other, .difference other ∈ ops → KeySet.Reachable other) →
        NoOverflow (trace MemberSet.Operation.perform ops s) →
        ∃ calls, Runs MemberSet.Operation.Means ops {} calls ∧
          List.Forall₂ (FiniteSet.Matches MemberSet.len MemberSet.members)
            (trace MemberSet.Operation.perform ops s) calls) := by
  constructor
  · intro α _ config s hs ops hothers hno
    have hstart : s.Represents True {} := WordSet.represents_of_ofConfig hs
    obtain ⟨⟨calls, hruns, hall⟩, -⟩ := exists_runs (fun op _ _ h => h.means op) ops hstart hno
    refine ⟨calls, hruns.imp fun op hop S d hmeans => ?_, hall.imp fun c d hagrees => ?_⟩
    · exact hmeans fun other heq => (hothers other (heq ▸ hop)).contains_eq
    · exact ⟨hagrees.result, hagrees.calls, hagrees.state.len_eq, hagrees.state.distinct,
        hagrees.state.members⟩
  · intro η α _ _ _ hasher hlawful config s hs ops hothers hno
    have hE : MemberSet.LawfulSlots (Option (HashedMember α)) (⟨hasher⟩ : Mixed η) _ :=
      hashedMember_lawful hlawful
    have hstart : s.Represents ⟨hasher⟩ True {} := MemberSet.represents_of_ofConfig hE hs
    obtain ⟨⟨calls, hruns, hall⟩, -⟩ := exists_runs (R := MemberSet.Represents ⟨hasher⟩ True)
      (fun op _ _ h => h.means hE op) ops hstart hno
    refine ⟨calls, hruns.imp fun op hop S d hmeans => ?_, hall.imp fun c d hagrees => ?_⟩
    · exact hmeans fun other heq => (hothers other (heq ▸ hop)).contains_eq
    · exact ⟨hagrees.result, hagrees.calls, hagrees.state.len_eq, hagrees.state.distinct,
        hagrees.state.members_perm⟩

/-- Runs with minus one as a member, with growth, with another set whose hasher is another one, and with a
panic. -/
theorem run_refines_finiteSet_minusOne :
    let wordSet : WordSet Int32 := .empty
    let otherWords := finalState WordSet.Operation.perform [.insert (-1), .insert 3] wordSet
    let wordOps : List (WordSet.Operation Int32) :=
      [.insert (-1), .extend [1, 2, 3, 4, 5, 6, 7], .erase (-1), .extend [-1, 8], .contains (-1),
        .cursor [.next, .remove], .eraseAll [2, -1, 2], .insert (-1), .retain fun x => .answers (x < 5),
        .difference otherWords, .compact, .retain fun _ => .panics, .clear]
    let hasher := HasherChoice.constant 7
    let keySet : KeySet HasherChoice String := .empty ⟨hasher⟩
    let freshKeys : KeySet HasherChoice String := .empty ⟨.byteSum⟩
    let otherKeys := finalState MemberSet.Operation.perform [.insert "b"] freshKeys
    let keyOps : List (MemberSet.Operation (Option (HashedMember String)) (Mixed HasherChoice) String) :=
      [.extend ["a", "b", "c"], .insert "b", .get? "b", .difference otherKeys, .take "c", .compact]
    Hasher.Lawful hasher String ∧
      (WordSet.ofConfig {} = .ok wordSet ∧ (∀ other, .difference other ∈ wordOps → other.Reachable) ∧
        NoOverflow (trace WordSet.Operation.perform wordOps wordSet) ∧
        ∃ calls, Runs WordSet.Operation.Means wordOps {} calls ∧
          List.Forall₂ (FiniteSet.Matches WordSet.len WordSet.members)
            (trace WordSet.Operation.perform wordOps wordSet) calls) ∧
      (MemberSet.ofConfig {} ⟨hasher⟩ = .ok keySet ∧
        (∀ other, .difference other ∈ keyOps → KeySet.Reachable other) ∧
        NoOverflow (trace MemberSet.Operation.perform keyOps keySet) ∧
        ∃ calls, Runs MemberSet.Operation.Means keyOps {} calls ∧
          List.Forall₂ (FiniteSet.Matches MemberSet.len MemberSet.members)
            (trace MemberSet.Operation.perform keyOps keySet) calls) := by
  intro wordSet otherWords wordOps hasher keySet freshKeys otherKeys keyOps
  have hlawful : ∀ hasher : HasherChoice, Hasher.Lawful hasher String :=
    fun hasher a b h => by rw [eq_of_beq h]
  refine ⟨hlawful hasher, ?_, ?_⟩
  · have hwordSet : WordSet.ofConfig {} = .ok wordSet := WordSet.ofConfig_default
    have hno : NoOverflow (trace WordSet.Operation.perform wordOps wordSet) := by decide +kernel
    have hother : otherWords.Reachable := ⟨{}, wordSet, hwordSet, .run (by decide +kernel)⟩
    have hothers : ∀ other, .difference other ∈ wordOps → other.Reachable := by
      intro other hmem
      simp only [wordOps, List.mem_cons, List.not_mem_nil, reduceCtorEq, false_or, or_false,
        WordSet.Operation.difference.injEq] at hmem
      exact hmem ▸ hother
    exact ⟨hwordSet, hothers, hno, run_refines_finiteSet.1 hwordSet wordOps hothers hno⟩
  · have hkeySet : MemberSet.ofConfig {} ⟨hasher⟩ = .ok keySet := MemberSet.ofConfig_default _
    have hfresh : MemberSet.ofConfig {} ⟨.byteSum⟩ = .ok freshKeys := MemberSet.ofConfig_default _
    have hno : NoOverflow (trace MemberSet.Operation.perform keyOps keySet) := by decide +kernel
    have hother : KeySet.Reachable otherKeys :=
      ⟨.byteSum, {}, freshKeys, hlawful .byteSum, hfresh, .run (by decide +kernel)⟩
    have hothers : ∀ other, .difference other ∈ keyOps → KeySet.Reachable other := by
      intro other hmem
      simp only [keyOps, List.mem_cons, List.not_mem_nil, reduceCtorEq, false_or, or_false,
        MemberSet.Operation.difference.injEq] at hmem
      exact hmem ▸ hother
    exact ⟨hkeySet, hothers, hno,
      run_refines_finiteSet.2 (hlawful hasher) hkeySet keyOps hothers hno⟩

end LinearProbing
