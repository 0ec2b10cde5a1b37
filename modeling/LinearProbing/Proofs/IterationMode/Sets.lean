import LinearProbing.Proofs.IterationMode.Table
import LinearProbing.Proofs.WordSet.Operation

/-!
# LinearProbing.Proofs.IterationMode.Sets

**The iteration mode of a set does not show.** Every operation on a set does the same to one without its mode
and without what a cursor has left in it (`perform_bare`). The sets that `difference` makes inherit the mode,
and show it as little.
-/

namespace LinearProbing

/-! ### Sets -/

namespace MemberSet

variable {σ η α : Type}

/-- A set without its iteration mode, and without what a cursor has left in it. -/
def bare (s : MemberSet σ η α) : MemberSet σ η α := s.withTable s.table.bare

/-- An operation that is given another set without its. -/
def Operation.bare : Operation σ η α → Operation σ η α
  | difference other => difference other.bare
  | op => op

section Slots

variable [MemberSlot σ α] (s : MemberSet σ η α)

/-- A sweep has a scan of its own, and leaves the one in the table alone. -/
theorem retain_bare (keeps : α → Reply Bool) : s.bare.retain keeps = (s.retain keeps).within bare := by
  have hswept := Table.eraseWhere_bare s.layout (fun x _ => (keeps x).map not) s.table
  exact congrArg (fun swept => ((Call.within s.withTable swept).mapCalls Prod.fst).map fun _ => ()) hswept

/-- Clearing a set forgets the scan in its table. -/
theorem clear_bare : s.bare.clear = s.clear.bare :=
  congrArg s.withTable (Table.clearWith_bare (fun _ => s.layout.empty) s.table)

theorem compact_bare : s.bare.compact = s.compact.within bare :=
  congrArg (Change.within s.withTable) (Table.compact_bare s.layout s.table)

end Slots

section Members

variable [MemberSlot σ α] [KeyHash η α] [BEq α] (s : MemberSet σ η α)

theorem locate_bare (x : α) : s.bare.locate x = s.locate x := rfl

theorem find?_bare (x : α) : s.bare.find? x = s.find? x := rfl

/-- An insertion does the same whatever the mode. -/
theorem insert_bare (x : α) : s.bare.insert x = (s.insert x).within bare := by
  unfold insert
  rw [s.locate_bare]
  cases s.locate x with
  | found | endless => rfl
  | vacant index =>
      have hinserted := s.table.insertAt_bare s.layout index (s.layout.occupy (s.hashOf x) x ())
      exact congrArg (fun c => (Change.within s.withTable c).map fun _ => true) hinserted

/-- A removal closes the same gap whatever the mode. -/
theorem take_bare (x : α) : s.bare.take x = (s.take x).map id bare := by
  unfold take
  rw [s.find?_bare]
  cases s.find? x <;> rfl

theorem erase_bare (x : α) : s.bare.erase x = (s.erase x).map id bare := by
  unfold erase
  rw [take_bare]
  rfl

theorem extend_bare (xs : List α) : s.bare.extend xs = (s.extend xs).within bare :=
  Change.within_forEach insert_bare xs s

/-- A list is removed member by member, whatever the mode. -/
theorem eraseAll_bare (xs : List α) : s.bare.eraseAll xs = (s.eraseAll xs).map id bare := by
  induction xs generalizing s with
  | nil => rfl
  | cons x rest ih =>
      rw [eraseAll, eraseAll, erase_bare]
      exact congrArg (Prod.map ((s.erase x).1 || ·) id) (ih (s.erase x).2)

/-- A difference has the mode of the first set, and does not depend on that of the other. -/
theorem difference_bare (other : MemberSet σ η α) :
    s.bare.difference other.bare = (s.difference other).within bare :=
  extend_bare (ofSizing .standard s.table.mode s.hashing) (s.members.filter (! other.contains ·))

end Members

/-- Two cursors of sets that are the same but for where the state of a scan is kept. -/
structure Cursor.Twin (c d : Cursor σ η α) : Prop where
  hashing : c.source.hashing = d.source.hashing
  inner : c.inner.Twin d.inner

/-- Cursors that agree up to the mode are on sets that do. -/
theorem Cursor.Twin.set {c d : Cursor σ η α} (h : c.Twin d) : c.set.bare = d.set.bare :=
  congrArg₂ MemberSet.mk h.hashing h.inner.table

/-- Every step of a cursor answers the same whatever the mode. -/
theorem follows_twin [MemberSlot σ α] :
    CursorInterface.Follows (Cursor.Twin (σ := σ) (η := η) (α := α)) where
  next {c d} h := by
    obtain ⟨hanswer, hnext⟩ := h.inner.next (E := MemberSlot.layout)
    exact ⟨congrArg (Option.map Prod.fst) hanswer, h.hashing, hnext⟩
  remove {c d} h := by
    obtain ⟨hanswer, hremoved⟩ := h.inner.remove (E := MemberSlot.layout)
    exact ⟨congrArg (Option.map Prod.fst) hanswer, h.hashing, hremoved⟩
  write value := nomatch value

/-- New cursors start at the same slot whatever the mode. -/
theorem twin_openCursor [MemberSlot σ α] (s : MemberSet σ η α) : s.bare.openCursor.Twin s.openCursor := by
  have htable : s.bare.table.bare = s.table.bare := rfl
  exact ⟨rfl, Table.Cursor.twin_openCursor htable⟩

/-- **An operation does the same without the mode of the set**, and without what a cursor has left in it. -/
theorem Operation.perform_bare [MemberSlot σ α] [KeyHash η α] [BEq α] (op : Operation σ η α)
    (s : MemberSet σ η α) :
    (op.bare.perform s.bare).within MemberSet.bare = (op.perform s).within MemberSet.bare := by
  cases op with
  | contains | containsAll | get? =>
      -- what is read from a slot is the same, so only the search is to be rewritten
      simp only [Operation.bare, perform, Call.within_searching, funext s.locate_bare]
      rfl
  | len | copy => rfl
  | insert | extend | difference =>
      simp only [Operation.bare, perform, insert_bare, extend_bare, difference_bare]
      rfl
  | erase | take | eraseAll =>
      simp only [Operation.bare, perform, Call.within_searching, funext s.locate_bare, erase_bare, take_bare,
        eraseAll_bare]
      rfl
  | retain | clear | compact =>
      simp only [Operation.bare, perform, retain_bare, clear_bare, compact_bare]
      rfl
  | cursor script =>
      obtain ⟨hanswers, hclosed⟩ := follows_twin.runScript script s.twin_openCursor
      simp only [Operation.bare, perform, hanswers]
      exact congrArg (Call.done · _) hclosed.set

end MemberSet

/-! ### Sets of words -/

namespace WordSet

variable {α : Type}

/-- A set without its iteration mode, and without what a cursor has left in it. -/
def bare (s : WordSet α) : WordSet α := { s with inner := s.inner.bare }

/-- An operation that is given another set without its. -/
def Operation.bare : Operation α → Operation α
  | difference other => difference other.bare
  | op => op

variable [SignedWord α] (s : WordSet α)

omit [SignedWord α] in
/-- The mode of a set of words is that of its table. -/
theorem inner_bare : s.bare.inner = s.inner.bare := rfl

theorem insert_bare (x : α) : s.bare.insert x = (s.insert x).within bare := by
  unfold insert
  rw [apply_ite (Change.within bare), inner_bare, MemberSet.insert_bare]
  rfl

theorem erase_bare (x : α) : s.bare.erase x = (s.erase x).map id bare := by
  unfold erase
  rw [apply_ite (Prod.map id bare), inner_bare, MemberSet.erase_bare]
  rfl

theorem retain_bare (keeps : α → Reply Bool) : s.bare.retain keeps = (s.retain keeps).within bare := by
  obtain ⟨inner, marked⟩ := s
  unfold retain
  rw [inner_bare, MemberSet.retain_bare]
  obtain ⟨⟨result, inner, events⟩, calls⟩ := inner.retain keeps
  cases result with
  | error failure => rfl
  | ok value =>
      cases marked with
      | false => rfl
      | true =>
          dsimp only [Call.within, Change.within, bare]
          cases keeps SignedWord.minusOne <;> rfl

theorem clear_bare : s.bare.clear = s.clear.bare :=
  congrArg (WordSet.mk · false) s.inner.clear_bare

theorem compact_bare : s.bare.compact = s.compact.within bare :=
  congrArg (Change.within (WordSet.mk · s.marked)) s.inner.compact_bare

theorem extend_bare (xs : List α) : s.bare.extend xs = (s.extend xs).within bare :=
  Change.within_forEach insert_bare xs s

theorem eraseAll_bare (xs : List α) : s.bare.eraseAll xs = (s.eraseAll xs).map id bare := by
  induction xs generalizing s with
  | nil => rfl
  | cons x rest ih =>
      rw [eraseAll, eraseAll, erase_bare]
      exact congrArg (Prod.map ((s.erase x).1 || ·) id) (ih (s.erase x).2)

theorem difference_bare (other : WordSet α) :
    s.bare.difference other.bare = (s.difference other).within bare :=
  extend_bare ⟨.ofSizing .standard s.inner.table.mode {}, false⟩ (s.members.filter (! other.contains ·))

/-- Two cursors of sets that are the same but for where the state of a scan is kept. -/
structure Cursor.Twin (c d : Cursor α) : Prop where
  inner : c.inner.Twin d.inner
  marked : c.marked = d.marked
  pending : c.pending = d.pending
  atMarker : c.atMarker = d.atMarker

omit [SignedWord α] in
theorem Cursor.Twin.set {c d : Cursor α} (h : c.Twin d) : c.set.bare = d.set.bare :=
  congrArg₂ WordSet.mk h.inner.set h.marked

theorem follows_twin : CursorInterface.Follows (Cursor.Twin (α := α)) where
  next {c d} h := by
    obtain ⟨hanswer, hnext⟩ := MemberSet.follows_twin.next h.inner
    change (Cursor.next c).1 = (Cursor.next d).1 ∧ (Cursor.next c).2.Twin (Cursor.next d).2
    unfold Cursor.next
    rw [h.pending]
    change c.inner.next.1 = d.inner.next.1 at hanswer
    change c.inner.next.2.Twin d.inner.next.2 at hnext
    generalize c.inner.next = x at hanswer hnext
    generalize d.inner.next = y at hanswer hnext
    obtain ⟨answer, inner⟩ := x
    obtain ⟨answer', inner'⟩ := y
    obtain rfl : answer = answer' := hanswer
    cases answer with
    | some x => exact ⟨rfl, hnext, h.marked, rfl, h.atMarker⟩
    | none =>
        -- minus one is still to come, or it has come already
        cases d.pending <;> exact ⟨rfl, hnext, h.marked, rfl, rfl⟩
  remove {c d} h := by
    obtain ⟨hanswer, hremoved⟩ := MemberSet.follows_twin.remove h.inner
    change (Cursor.remove c).1 = (Cursor.remove d).1 ∧ (Cursor.remove c).2.Twin (Cursor.remove d).2
    unfold Cursor.remove
    rw [h.atMarker]
    cases d.atMarker with
    | true => exact ⟨rfl, h.inner, rfl, h.pending, rfl⟩
    | false => exact ⟨hanswer, hremoved, h.marked, h.pending, rfl⟩
  write value := nomatch value

/-- The searches of an operation do not look at the mode. -/
theorem Operation.searches_bare (s : WordSet α) : searches s.bare = searches s := rfl

/-- **An operation does the same without the mode of the set**, and without what a cursor has left in it. -/
theorem Operation.perform_bare (op : Operation α) (s : WordSet α) :
    (op.bare.perform s.bare).within WordSet.bare = (op.perform s).within WordSet.bare := by
  cases op with
  | contains | containsAll =>
      simp only [Operation.bare, perform, Call.within_searching, searches_bare]
      rfl
  | len => rfl
  | insert | extend | difference =>
      simp only [Operation.bare, perform, insert_bare, extend_bare, difference_bare]
      rfl
  | erase | eraseAll =>
      simp only [Operation.bare, perform, Call.within_searching, searches_bare, erase_bare, eraseAll_bare]
      rfl
  | retain | clear | compact =>
      simp only [Operation.bare, perform, retain_bare, clear_bare, compact_bare]
      rfl
  | cursor script =>
      -- a cursor on a set of words also carries the mark, which has no mode
      have htwin : s.bare.openCursor.Twin s.openCursor := ⟨s.inner.twin_openCursor, rfl, rfl, rfl⟩
      obtain ⟨hanswers, hclosed⟩ := follows_twin.runScript script htwin
      simp only [Operation.bare, perform, hanswers]
      exact congrArg (Call.done · _) hclosed.set

end WordSet

end LinearProbing
