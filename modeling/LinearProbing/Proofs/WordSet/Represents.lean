import LinearProbing.Proofs.LawfulSlots
import LinearProbing.Proofs.WordSet.Operation

/-!
# LinearProbing.Proofs.WordSet.Represents

**Sets of words are finite sets.** `WordSet.Represents` relates a set to the finite set of its members:
those in the table, which never holds minus one, and minus one if it is marked. Every operation keeps the
relation and gives what its specification gives (`Represents.perform`); the only exception is an insertion
that cannot grow the table.
-/

namespace LinearProbing

/-! ### Finite sets of words -/

namespace FiniteSet

variable {α : Type} [BEq α] [LawfulBEq α] {s t : FiniteSet α} {x : α} {l : List α}

theorem contains_eq_decide [DecidableEq α] : s.contains x = decide (x ∈ s.members) := by
  rw [Bool.eq_iff_iff, FiniteSet.contains, List.contains_iff_mem, decide_eq_true_iff]

/-- Inserting a value beside others that it is none of. -/
theorem insert_perm_append [DecidableEq α] (h : s.members.Perm (t.members ++ l)) (hx : x ∉ l) :
    (s.insert x).members.Perm ((t.insert x).members ++ l) := by
  have hmem : x ∈ s.members ↔ x ∈ t.members := by
    rw [h.mem_iff, List.mem_append, or_iff_left hx]
  rw [FiniteSet.insert, FiniteSet.insert, contains_eq_decide, contains_eq_decide]
  by_cases ht : x ∈ t.members
  · rwa [decide_eq_true ht, decide_eq_true (hmem.mpr ht)]
  · rw [decide_eq_false ht, decide_eq_false (mt hmem.mp ht)]
    exact h.cons x

/-- Erasing a value beside others that it is none of. -/
theorem erase_perm_append (h : s.members.Perm (t.members ++ l)) (hx : x ∉ l) :
    (s.erase x).members.Perm ((t.erase x).members ++ l) := by
  have hl : l.filter (! · == x) = l :=
    List.filter_eq_self.mpr fun y hy => by simp [ne_of_mem_of_not_mem hy hx]
  have := h.filter (! · == x)
  rwa [List.filter_append, hl] at this

end FiniteSet

namespace WordSet

variable {α : Type} [SignedWord α] {within : Prop}
variable {s : WordSet α} {S T : FiniteSet α} {u : MemberSet α Spreading α} {marked : Bool}
variable {x : α} {xs : List α}

/-- A usable set with the members of a finite set. -/
structure Represents (within : Prop) (s : WordSet α) (S : FiniteSet α) : Prop where
  inner : s.inner.Represents {} within ⟨s.inner.members⟩
  /-- Those in the table, and minus one if it is marked, are the members. -/
  members : s.members.Perm S.members

/-- A set whose table holds too many members. -/
def Overfull (within : Prop) (s : WordSet α) : Prop := s.inner.Overfull {} within

/-- A change of a set does what is specified of it. -/
abbrev Changes (within : Prop) {β : Type} (c : Change (WordSet α) β) (d : Change (FiniteSet α) β) :
    Prop :=
  c.Tracks (Represents within) (Overfull within) d

/-- The members are those in the table and, if it is marked, minus one. -/
theorem represents_of_inner (h : u.Represents {} within T)
    (hS : (T.members ++ (⟨u, marked⟩ : WordSet α).marker).Perm S.members) :
    (⟨u, marked⟩ : WordSet α).Represents within S :=
  ⟨h.perm h.members_perm.symm, (h.members_perm.append_right _).trans hS⟩

/-- Minus one is never in the table. -/
theorem minusOne_notMem_inner : SignedWord.minusOne ∉ s.inner.members := by
  intro hmem
  obtain ⟨e, he, hx⟩ := List.mem_map.mp hmem
  obtain ⟨slot, -, hs⟩ := List.mem_filterMap.mp he
  have hs : (if slot = SignedWord.minusOne then none else some (asEntry slot)) = some e := hs
  split at hs
  · exact absurd hs (by simp)
  · next hne =>
    obtain rfl := Option.some.inj hs
    exact hne hx

/-- The mark stands for minus one alone. -/
theorem mem_marker : x ∈ s.marker ↔ x = SignedWord.minusOne ∧ s.marked = true := by
  rw [marker]
  cases s.marked <;> simp

theorem notMem_marker (hx : x ≠ SignedWord.minusOne) : x ∉ s.marker :=
  fun hmem => hx (mem_marker.mp hmem).1

/-! ### Construction -/

/-- A new set is empty. -/
theorem represents_of_ofConfig {config : TableConfig} (h : ofConfig config = .ok s) :
    s.Represents within {} := by
  obtain ⟨inner, hinner, rfl⟩ := exists_of_map_eq_ok h
  exact represents_of_inner (MemberSet.represents_of_ofConfig (wordMember_lawful {}) hinner)
    (List.Perm.refl _)

theorem ofConfig_default : ofConfig {} = .ok (empty : WordSet α) := by
  rw [ofConfig, MemberSet.ofConfig_default]
  rfl

/-! ### Searching -/

/-- A set contains what the finite set contains. -/
theorem Represents.contains_eq (h : s.Represents within S) (x : α) : s.contains x = S.contains x := by
  -- minus one is looked up in the mark, all else in the table
  have hmem : x ∈ S.members ↔ x ∈ s.inner.members ∨ x ∈ s.marker := by
    rw [← h.members.mem_iff, WordSet.members, List.mem_append]
  rw [WordSet.contains, FiniteSet.contains_eq_decide]
  by_cases hx : x = SignedWord.minusOne
  · subst hx
    rw [if_pos rfl, Bool.eq_iff_iff, decide_eq_true_iff, hmem,
      or_iff_right minusOne_notMem_inner, mem_marker, and_iff_right rfl]
  · rw [if_neg hx, h.inner.contains_eq (wordMember_lawful {}), FiniteSet.contains_eq_decide,
      Bool.eq_iff_iff, decide_eq_true_iff, decide_eq_true_iff, hmem,
      or_iff_left (notMem_marker hx)]

theorem Represents.containsAll_eq (h : s.Represents within S) (xs : List α) :
    s.containsAll xs = xs.all S.contains := by
  rw [WordSet.containsAll, funext h.contains_eq]

/-- The length counts the mark. -/
theorem Represents.len_eq (h : s.Represents within S) : s.len = S.size := by
  have hinner : s.inner.len = s.inner.members.length :=
    h.inner.table.len_eq_length.trans (List.length_map ..)
  have hmarker : s.marked.toNat = s.marker.length := by
    rw [marker]
    cases s.marked <;> rfl
  rw [WordSet.len, hinner, hmarker, ← List.length_append]
  exact h.members.length_eq

/-- Every search ends. -/
theorem Represents.endless_notMem (h : s.Represents within S) (xs : List α) :
    Probe.endless ∉ xs.flatMap (Operation.searches s) := by
  intro hmem
  obtain ⟨x, -, hx⟩ := List.mem_flatMap.mp hmem
  rw [Operation.searches] at hx
  split at hx
  · exact absurd hx List.not_mem_nil
  · exact h.inner.locate_ne_endless (wordMember_lawful {}) x (List.mem_singleton.mp hx).symm

/-! ### Adding and removing -/

/-- Marking is the insertion of minus one. -/
theorem Represents.mark (h : s.Represents within S) :
    ({ s with marked := true } : WordSet α).Represents within (S.insert SignedWord.minusOne) := by
  have hcontains := h.contains_eq SignedWord.minusOne
  obtain ⟨u, marked⟩ := s
  refine ⟨h.inner, ?_⟩
  rw [WordSet.contains, if_pos rfl] at hcontains
  rw [FiniteSet.insert, ← hcontains]
  cases marked with
  | true => exact h.members
  | false =>
      have hmembers := h.members
      rw [WordSet.members, marker, if_neg Bool.false_ne_true, List.append_nil] at hmembers
      exact (List.perm_append_singleton _ _).trans (hmembers.cons _)

/-- Removing the mark is the removal of minus one. -/
theorem Represents.unmark (h : s.Represents within S) :
    ({ s with marked := false } : WordSet α).Represents within (S.erase SignedWord.minusOne) := by
  have hinner : s.inner.members.filter (! · == SignedWord.minusOne) = s.inner.members :=
    List.filter_eq_self.mpr fun y hy => by
      simp [ne_of_mem_of_not_mem hy minusOne_notMem_inner]
  have hmarker : s.marker.filter (! · == SignedWord.minusOne) = [] :=
    List.filter_eq_nil_iff.mpr fun y hy => by simp [(mem_marker.mp hy).1]
  refine ⟨h.inner, ?_⟩
  have hmembers := h.members.filter (! · == SignedWord.minusOne)
  rwa [WordSet.members, List.filter_append, hinner, hmarker] at hmembers

/-- **An insertion adds a word**, or marks minus one. -/
theorem Represents.insert (h : s.Represents within S) (x : α) :
    Changes within (s.insert x) (.done (S.insert x) (! S.contains x)) := by
  rw [WordSet.insert, ← h.contains_eq, WordSet.contains]
  by_cases hx : x = SignedWord.minusOne
  · subst hx
    rw [if_pos rfl, if_pos rfl]
    exact .done h.mark _
  · rw [if_neg hx, if_neg hx]
    -- the mark stays behind the words of the table
    have hperm := FiniteSet.insert_perm_append (t := ⟨s.inner.members⟩) h.members.symm
      (notMem_marker hx)
    have hcontains := h.inner.contains_eq (wordMember_lawful {}) x
    rcases h.inner.insert (wordMember_lawful {}) hx with hagrees | ⟨hresult, hstate⟩
    · refine Or.inl ⟨?_, hagrees.ends, represents_of_inner hagrees.state hperm.symm⟩
      rw [hcontains]
      exact hagrees.result
    · exact Or.inr ⟨hresult, hstate⟩

/-- A list is inserted word by word. -/
theorem Represents.extend (h : s.Represents within S) (xs : List α) :
    Changes within (s.extend xs) (.done (xs.foldl FiniteSet.insert S) ()) := by
  rw [← Change.forEach_done]
  exact Change.Tracks.forEach h fun x _ {_ _} hstate => hstate.insert x

/-- A removal says whether the word was there. -/
theorem Represents.erase (h : s.Represents within S) (x : α) :
    (s.erase x).1 = S.contains x ∧ (s.erase x).2.Represents within (S.erase x) := by
  rw [WordSet.erase, ← h.contains_eq, WordSet.contains]
  by_cases hx : x = SignedWord.minusOne
  · subst hx
    rw [if_pos rfl, if_pos rfl]
    exact ⟨rfl, h.unmark⟩
  · rw [if_neg hx, if_neg hx]
    have hperm := FiniteSet.erase_perm_append (t := ⟨s.inner.members⟩) h.members.symm
      (notMem_marker hx)
    obtain ⟨hfound, hstate⟩ := h.inner.erase (wordMember_lawful {}) x
    rw [h.inner.contains_eq (wordMember_lawful {})]
    exact ⟨hfound, represents_of_inner hstate hperm.symm⟩

/-- Removing a list says whether any of its words was there. -/
theorem Represents.eraseAll (xs : List α) (h : s.Represents within S) :
    (s.eraseAll xs).1 = (S.eraseAll xs).1 ∧
      (s.eraseAll xs).2.Represents within (S.eraseAll xs).2 := by
  induction xs generalizing s S with
  | nil => exact ⟨rfl, h⟩
  | cons x rest ih =>
      obtain ⟨hfound, herased⟩ := h.erase x
      obtain ⟨hothers, hstate⟩ := ih herased
      refine ⟨?_, hstate⟩
      show ((s.erase x).1 || ((s.erase x).2.eraseAll rest).1) = _
      rw [hothers, hfound]
      rfl

theorem Represents.clear (h : s.Represents within S) : s.clear.Represents within {} :=
  represents_of_inner (h.inner.clear (wordMember_lawful {})) (List.Perm.refl _)

/-- Compaction moves the words in the table, and leaves the mark. -/
theorem Represents.compact (h : s.Represents within S) :
    Changes within s.compact (.done S ()) := by
  rcases h.inner.compact (wordMember_lawful {}) with hagrees | hoverflow
  · exact Or.inl ⟨hagrees.result, hagrees.ends, represents_of_inner hagrees.state h.members⟩
  · exact Or.inr hoverflow

theorem Represents.members_distinct (h : s.Represents within S) :
    s.members.Pairwise fun a b => (a == b) = false := by
  have hinner : s.inner.members.Pairwise fun a b => (a == b) = false :=
    List.pairwise_map.mpr h.inner.table.arranged.distinct
  refine List.pairwise_append.mpr ⟨hinner, ?_, fun a ha b hb => ?_⟩
  · rw [marker]
    cases s.marked <;> simp
  · rw [(mem_marker.mp hb).1]
    exact beq_false_of_ne (ne_of_mem_of_not_mem ha minusOne_notMem_inner)

theorem Represents.distinct (h : s.Represents within S) : S.Distinct :=
  (h.members.pairwise_iff fun {a b} hab => by rwa [BEq.comm]).mp h.members_distinct

/-- The difference is a new set: all its members are added one by one. -/
theorem Represents.difference (h : s.Represents within S) (other : WordSet α) :
    Changes within (s.difference other) (.done (S.without other.contains) ()) := by
  rw [WordSet.difference]
  have hfresh : (⟨.ofSizing .standard s.inner.table.mode {}, false⟩ : WordSet α).Represents within {} :=
    represents_of_inner
      (MemberSet.represents_ofSizing (wordMember_lawful {}) Sizing.valid_standard _) (List.Perm.refl _)
  refine (hfresh.extend _).restate fun u hu => ⟨hu.inner, hu.members.trans ?_⟩
  refine (FiniteSet.foldl_insert_perm (h.members_distinct.filter _)
    fun _ _ => List.forall_mem_nil _).trans ?_
  rw [List.append_nil]
  exact h.members.filter _

/-! ### Going through the members -/

/-- The members in the order in which a scan produces them: minus one comes last. -/
def scanOrder (s : WordSet α) : List α := s.inner.scanOrder ++ s.marker

/-- A scan passes each word once, and minus one last. -/
theorem Represents.scanOrder_perm (h : s.Represents within S) : s.scanOrder.Perm S.members :=
  (h.inner.scanOrder_perm.append_right _).trans h.members

/-- The words that are not to be kept are removed, in the order of a scan. -/
theorem Represents.retain (h : s.Represents within S) (keeps : α → Reply Bool) :
    (s.retain keeps).Agrees (Represents within) (FiniteSet.retain s.scanOrder keeps) := by
  have hinner := h.inner.retain (wordMember_lawful {}) keeps
  rw [scanOrder, FiniteSet.retain, sift_append, WordSet.retain]
  rw [FiniteSet.retain] at hinner
  generalize s.inner.retain keeps = c at hinner ⊢
  generalize sift (fun x => (keeps x).map not) s.inner.scanOrder false = d at hinner ⊢
  obtain ⟨⟨result, state, _⟩, calls⟩ := c
  obtain ⟨⟨result', state', _⟩, calls'⟩ := d
  obtain rfl : result = result'.map fun _ => () := hinner.result
  obtain rfl : calls = calls' := hinner.calls
  have hstate : state.Represents {} within ⟨state'⟩ := hinner.state
  have hagrees : ∀ {marked : Bool} {l : List α}, (⟨state, marked⟩ : WordSet α).marker = l →
      (⟨state, marked⟩ : WordSet α).Represents within ⟨state' ++ l⟩ := by
    rintro marked _ rfl
    exact represents_of_inner hstate (List.Perm.refl _)
  cases result' with
  -- after a panic in the table, minus one is not asked about
  | error failure => exact ⟨⟨rfl, hinner.ends, hagrees rfl⟩, rfl⟩
  | ok removed =>
      obtain ⟨u, marked⟩ := s
      cases marked with
      | false => exact ⟨⟨rfl, ends_ok (), hagrees rfl⟩, (List.append_nil calls).symm⟩
      | true =>
          rw [marker, if_pos rfl]
          dsimp only [Except.map, Call.within, Change.within]
          rw [if_pos rfl, sift]
          cases keeps SignedWord.minusOne with
          | panics => exact ⟨⟨rfl, ends_panicked, hagrees rfl⟩, rfl⟩
          | answers kept => cases kept <;> exact ⟨⟨rfl, ends_ok (), hagrees rfl⟩, rfl⟩

/-- A cursor over a set, and the walk that it is. Minus one is ahead, or it is current, or it is behind if
it is still a member. -/
inductive Scanned (within : Prop) (c : Cursor α) : Walk α Empty → Prop
  | inTable {writes : Empty → Except TableError (α → Option α)} {ahead behind : List α}
      {current : Option α}
      (inner : MemberSet.Scanned {} within c.inner ⟨writes, ahead, current, behind⟩)
      (pending : c.pending = c.marked) (atMarker : c.atMarker = false) :
      Scanned within c ⟨writes, ahead ++ c.set.marker, current, behind⟩
  | atMarker {writes : Empty → Except TableError (α → Option α)} {behind : List α}
      (inner : MemberSet.Scanned {} within c.inner ⟨writes, [], none, behind⟩)
      (marked : c.marked = true) (pending : c.pending = false) (atMarker : c.atMarker = true) :
      Scanned within c ⟨writes, [], some SignedWord.minusOne, behind⟩
  | past {writes : Empty → Except TableError (α → Option α)} {behind : List α}
      (inner : MemberSet.Scanned {} within c.inner ⟨writes, [], none, behind⟩)
      (pending : c.pending = false) (atMarker : c.atMarker = false) :
      Scanned within c ⟨writes, [], none, c.set.marker ++ behind⟩

theorem Represents.openCursor (h : s.Represents within S) :
    Scanned within s.openCursor (FiniteSet.walk s.scanOrder) :=
  .inTable h.inner.openCursor rfl rfl

/-- The set under a cursor has the words that the walk has left. -/
theorem Scanned.set {c : Cursor α} {w : Walk α Empty} (h : Scanned within c w) :
    c.set.Represents within ⟨w.contents⟩ := by
  cases h with
  | inTable inner => exact represents_of_inner inner.set (List.Perm.of_eq (List.append_assoc ..))
  | @atMarker _ behind inner marked =>
      have hmarker : c.set.marker = [SignedWord.minusOne] := if_pos marked
      refine represents_of_inner inner.set ?_
      show (behind ++ [] ++ c.set.marker).Perm (SignedWord.minusOne :: (behind ++ []))
      rw [hmarker]
      exact List.perm_append_singleton ..
  | @past _ behind inner =>
      refine represents_of_inner inner.set ?_
      show (behind ++ [] ++ c.set.marker).Perm (c.set.marker ++ behind ++ [])
      rw [List.append_nil, List.append_nil]
      exact List.perm_append_comm

/-- As long as the scan of the table gives words, so does the cursor. -/
theorem Cursor.next_of_some {c : Cursor α} (h : c.inner.next.1 = some x) :
    c.next = (some x, { c with inner := c.inner.next.2 }) := by
  rw [Cursor.next]
  generalize c.inner.next = y at h
  obtain ⟨x?, inner⟩ := y
  obtain rfl : x? = some x := h
  rfl

/-- After the table comes minus one, if it was marked, and after that nothing. -/
theorem Cursor.next_of_none {c : Cursor α} (h : c.inner.next.1 = none) :
    c.next =
      if c.pending then
        (some SignedWord.minusOne,
          { c with inner := c.inner.next.2, pending := false, atMarker := true })
      else (none, { c with inner := c.inner.next.2, atMarker := false }) := by
  rw [Cursor.next]
  generalize c.inner.next = y at h
  obtain ⟨x?, inner⟩ := y
  obtain rfl : x? = none := h
  rfl

theorem Scanned.next {c : Cursor α} {w : Walk α Empty} (h : Scanned within c w) :
    c.next.1 = w.next.1 ∧ Scanned within c.next.2 w.next.2 := by
  obtain ⟨inner, marked, pending, atMarker⟩ := c
  cases h with
  | @inTable writes ahead behind current hinner hpending hat =>
      obtain rfl : pending = marked := hpending
      obtain rfl : atMarker = false := hat
      obtain ⟨hnext, hscanned⟩ := hinner.next
      cases ahead with
      | cons x rest =>
          rw [Cursor.next_of_some hnext]
          exact ⟨rfl, .inTable hscanned rfl rfl⟩
      | nil =>
          rw [Cursor.next_of_none hnext]
          -- at the end of the table, minus one comes if it is still to come
          cases pending with
          | true => exact ⟨rfl, .atMarker hscanned rfl rfl rfl⟩
          | false => exact ⟨rfl, .past hscanned rfl rfl⟩
  | atMarker hinner hmarked hpending hat =>
      obtain rfl : marked = true := hmarked
      obtain rfl : pending = false := hpending
      obtain ⟨hnext, hscanned⟩ := hinner.next
      rw [Cursor.next_of_none hnext]
      exact ⟨rfl, .past hscanned rfl rfl⟩
  | past hinner hpending hat =>
      obtain rfl : pending = false := hpending
      obtain ⟨hnext, hscanned⟩ := hinner.next
      rw [Cursor.next_of_none hnext]
      exact ⟨rfl, .past hscanned rfl rfl⟩

/-- A cursor removes the word that it is at, or the mark. -/
theorem Scanned.remove {c : Cursor α} {w : Walk α Empty} (h : Scanned within c w) :
    c.remove.1 = w.remove.1 ∧ Scanned within c.remove.2 w.remove.2 := by
  obtain ⟨inner, marked, pending, atMarker⟩ := c
  rw [Cursor.remove]
  -- in the table, at the mark, or past it
  cases h with
  | inTable hinner hpending hat =>
      obtain rfl : pending = marked := hpending
      obtain rfl : atMarker = false := hat
      obtain ⟨hremoved, hscanned⟩ := hinner.remove (wordMember_lawful {})
      exact ⟨hremoved, .inTable hscanned rfl rfl⟩
  | atMarker hinner hmarked hpending hat =>
      obtain rfl : pending = false := hpending
      obtain rfl : atMarker = true := hat
      exact ⟨rfl, .past hinner rfl rfl⟩
  | past hinner hpending hat =>
      obtain rfl : pending = false := hpending
      obtain rfl : atMarker = false := hat
      obtain ⟨hremoved, hscanned⟩ := hinner.remove (wordMember_lawful {})
      exact ⟨hremoved, .past hscanned rfl rfl⟩

/-- A cursor over a set is a walk along its members. -/
theorem follows_walk : CursorInterface.Follows (Scanned (α := α) within) where
  next h := h.next
  remove h := h.remove
  write value := nomatch value

/-! ### All operations -/

/-- **Every operation does what is specified of it.** -/
theorem Represents.perform (h : s.Represents within S) (op : Operation α) :
    ∃ d, op.Allows S d ∧ (op.perform s).Tracks (Represents within) (Overfull within) d := by
  refine ⟨_, ⟨s.scanOrder, h.scanOrder_perm, rfl⟩, ?_⟩
  have hends : ∀ xs : List α, Probe.endless ∉ xs.flatMap (Operation.searches s) := h.endless_notMem
  have hends' : ∀ x, Probe.endless ∉ Operation.searches s x := fun x => by simpa using hends [x]
  cases op with
  | contains x =>
      rw [Operation.perform, Call.searching_of_notMem (hends' x), h.contains_eq]
      exact .done h _
  | containsAll xs =>
      rw [Operation.perform, Call.searching_of_notMem (hends xs), h.containsAll_eq]
      exact .done h _
  | len =>
      rw [Operation.perform, h.len_eq]
      exact .done h _
  | insert x => exact .quiet ((h.insert x).map _)
  | extend xs => exact .quiet ((h.extend xs).map fun _ => Answer.nothing)
  | erase x =>
      obtain ⟨hfound, hstate⟩ := h.erase x
      rw [Operation.perform, Call.searching_of_notMem (hends' x), hfound]
      exact .done hstate _
  | eraseAll xs =>
      obtain ⟨hremoved, hstate⟩ := Represents.eraseAll xs h
      have hfirst : Probe.endless ∉ (xs.flatMap (Operation.searches s)).take 1 :=
        mt List.mem_of_mem_take (hends xs)
      rw [Operation.perform, Call.searching_of_notMem hfirst, hremoved]
      exact .done hstate _
  | retain keeps => exact .inl (((h.retain keeps).mapCalls _).map _)
  | difference other => exact .quiet ((h.difference other).map fun _ => Answer.nothing)
  | clear => exact .done h.clear _
  | compact => exact .quiet (h.compact.map _)
  | cursor script =>
      obtain ⟨hanswers, hlast⟩ := follows_walk.runScript script h.openCursor
      rw [Operation.perform, Operation.specify, hanswers]
      exact .done hlast.set _

end WordSet

end LinearProbing
