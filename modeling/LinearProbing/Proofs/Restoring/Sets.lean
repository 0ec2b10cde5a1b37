import LinearProbing.Proofs.LawfulSlots
import LinearProbing.Proofs.Restoring.Runs
import LinearProbing.Proofs.Restoring.Table
import LinearProbing.Proofs.WordSet.Represents

/-!
# LinearProbing.Proofs.Restoring.Sets

**Adding a member and removing it again restores a set.** Operations that concern only the member leave the
set as it was but for the member (`UpToMember.perform`), and operations that remove it leave the set as it was
(`UpToMember.restored`).

In a set of words, minus one is in no slot. What concerns another member does not touch the mark for it; what
concerns minus one touches nothing but the mark.
-/

namespace LinearProbing

/-! ### Sets in a table -/

namespace MemberSet

variable {σ η α : Type} [MemberSlot σ α] [BEq α]

/-- The operation reads or copies the set, or it adds or removes nothing but a member. -/
def Operation.Concerns (x : α) (op : Operation σ η α) (s : MemberSet σ η α) : Prop :=
  match op with
  | .contains _ | .containsAll _ | .get? _ | .len | .copy => True
  | .insert y | .erase y | .take y => (y == x) = true
  | .extend ys | .eraseAll ys => ∀ y ∈ ys, (y == x) = true
  | .retain keeps => ∀ y, keeps y = .answers false → (y == x) = true
  | .difference _ | .clear | .compact => False
  | .cursor script => CursorInterface.Confined (fun y => (y == x) = true) script s.openCursor

/-- The operation removes a member. -/
def Operation.Removes (x : α) (op : Operation σ η α) (s : MemberSet σ η α) : Prop :=
  match op with
  | .erase y | .take y => (y == x) = true
  | .eraseAll ys => ys ≠ [] ∧ ∀ y ∈ ys, (y == x) = true
  | .cursor script => CursorInterface.EndsWithRemoval (fun y => (y == x) = true) script s.openCursor
  | _ => False

variable [KeyHash η α] {hashing : η} {storable : α → Unit → Prop} {t : Table σ} {s : MemberSet σ η α}
  {x y : α} {xs : List α} {place i : Nat}

/-- The member is absent from a table, and there is room for it. -/
abbrev RoomFor (hashing : η) (storable : α → Unit → Prop) (t : Table σ) (x : α) (place : Nat) : Prop :=
  t.RoomFor (MemberSlot.layout : EntryLayout σ α Unit) (KeyHash.hash hashing) storable x place

/-- The table of a set is `t`, or `t` with the member, but for what is left in vacant slots. -/
structure UpToMember (hashing : η) (storable : α → Unit → Prop) (t : Table σ) (x : α) (place : Nat)
    (s : MemberSet σ η α) : Prop where
  hashing_eq : s.hashing = hashing
  table : t.UpToKey MemberSlot.layout (KeyHash.hash hashing) storable x place s.table

/-- The table of a set is `t`, but for what is left in vacant slots. -/
abbrev Restored (hashing : η) (t : Table σ) (s : MemberSet σ η α) : Prop :=
  s.hashing = hashing ∧ t.Like MemberSlot.layout False s.table

theorem Restored.upToMember (h : s.Restored hashing t) : s.UpToMember hashing storable t x place :=
  ⟨h.1, .absent h.2⟩

/-- A member that is not contained is not found. -/
theorem find?_of_contains (h : s.contains x = false) : s.find? x = none :=
  Option.isNone_iff_eq_none.mp (Option.isSome_eq_false_iff.mp h)

variable [EquivBEq α] (hE : LawfulSlots σ hashing storable) (room : RoomFor hashing storable t x place)
include hE room

/-- Where the member is not found, the set is as it was. -/
theorem UpToMember.restored_of_find? (h : s.UpToMember hashing storable t x place) (hy : (y == x) = true)
    (hfind : s.find? y = none) : s.Restored hashing t := by
  obtain ⟨rfl, h⟩ := h
  exact ⟨rfl, h.like_of_find? hE room hy hfind⟩

/-- An insertion puts the member into its place. -/
theorem UpToMember.insert (h : s.UpToMember hashing storable t x place) (hy : (y == x) = true)
    (hstorable : storable y ()) : (s.insert y).state.UpToMember hashing storable t x place := by
  rw [MemberSet.insert]
  cases hlocate : s.locate y with
  | endless => exact h
  | found i => exact h
  | vacant i =>
      obtain ⟨rfl, h⟩ := h
      exact ⟨rfl, h.insertAt hE room hy hstorable hlocate⟩

/-- **Taking the member out restores the table**, whether it was there or not. -/
theorem UpToMember.restored_take (h : s.UpToMember hashing storable t x place) (hy : (y == x) = true) :
    (s.take y).2.Restored hashing t := by
  rw [MemberSet.take]
  cases hfind : s.find? y with
  | none => exact h.restored_of_find? hE room hy hfind
  | some i =>
      obtain ⟨rfl, h⟩ := h
      obtain ⟨e, he, hsame⟩ := Table.exists_entryAt?_of_find? hfind hy
      exact ⟨rfl, h.eraseAt hE room he hsame⟩

/-- A list of forms of the member inserts it at most once. -/
theorem UpToMember.extend (h : s.UpToMember hashing storable t x place)
    (hxs : ∀ y ∈ xs, (y == x) = true ∧ storable y ()) :
    (s.extend xs).state.UpToMember hashing storable t x place :=
  Change.state_forEach h fun y hy _ h => h.insert hE room (hxs y hy).1 (hxs y hy).2

/-- A list of forms of the member removes it at most once. -/
theorem UpToMember.eraseAll (h : s.UpToMember hashing storable t x place)
    (hxs : ∀ y ∈ xs, (y == x) = true) : (s.eraseAll xs).2.UpToMember hashing storable t x place := by
  induction xs generalizing s with
  | nil => exact h
  | cons y rest ih =>
      exact ih (h.restored_take hE room (hxs y List.mem_cons_self)).upToMember
        fun z hz => hxs z (List.mem_cons_of_mem y hz)

/-- Removing a list of forms of the member restores the table, unless the list is empty. -/
theorem UpToMember.restored_eraseAll (h : s.UpToMember hashing storable t x place) (hne : xs ≠ [])
    (hxs : ∀ y ∈ xs, (y == x) = true) : (s.eraseAll xs).2.Restored hashing t := by
  induction xs generalizing s with
  | nil => exact absurd rfl hne
  | cons y rest ih =>
      have hfirst := h.restored_take hE room (hxs y List.mem_cons_self)
      cases rest with
      | nil => exact hfirst
      | cons z rest => exact ih hfirst.upToMember nofun fun z hz => hxs z (List.mem_cons_of_mem y hz)

omit [EquivBEq α] in
/-- A predicate that rejects no other member removes at most this one. -/
theorem UpToMember.retain (h : s.UpToMember hashing storable t x place) {keeps : α → Reply Bool}
    (hkeeps : ∀ y, keeps y = .answers false → (y == x) = true) :
    (s.retain keeps).state.UpToMember hashing storable t x place := by
  obtain ⟨rfl, h⟩ := h
  exact ⟨rfl, h.sweep hE room (fun y _ hselected => hkeeps y (Reply.rejects_of_map_not hselected)) _ _ _⟩

/-! ### Cursors over a table -/

omit hE room in
/-- A cursor over such a set. -/
structure Cursor.UpToMember (hashing : η) (storable : α → Unit → Prop) (t : Table σ) (x : α) (place : Nat)
    (c : Cursor σ η α) : Prop where
  hashing_eq : c.source.hashing = hashing
  inner : Table.Cursor.UpToKey MemberSlot.layout (KeyHash.hash hashing) storable t x place c.inner

omit [EquivBEq α] hE room in
theorem Cursor.UpToMember.set {c : Cursor σ η α} (h : c.UpToMember hashing storable t x place) :
    c.set.UpToMember hashing storable t x place :=
  ⟨h.hashing_eq, h.inner.table⟩

omit [EquivBEq α] hE room in
/-- A step of a cursor changes no slot. -/
theorem Cursor.UpToMember.next {c : Cursor σ η α} (h : c.UpToMember hashing storable t x place) :
    c.next.2.UpToMember hashing storable t x place :=
  ⟨h.hashing_eq, h.inner.next⟩

omit [EquivBEq α] hE room in
theorem UpToMember.openCursor (h : s.UpToMember hashing storable t x place) :
    s.openCursor.UpToMember hashing storable t x place :=
  ⟨h.hashing_eq, Table.Cursor.upToKey_openCursor h.table⟩

omit [EquivBEq α] in
/-- A cursor that removes no other member restores the table with its removal. -/
theorem Cursor.UpToMember.remove {c : Cursor σ η α} (h : c.UpToMember hashing storable t x place)
    (hconfined : ∀ y ∈ c.remove.1, (y == x) = true) :
    c.remove.2.UpToMember hashing storable t x place ∧
      (c.remove.1.isSome → c.remove.2.set.Restored hashing t) := by
  obtain ⟨hremoved, hrestored⟩ := h.inner.remove hE room fun e he =>
    hconfined e.1 (Option.mem_map_of_mem Prod.fst he)
  refine ⟨⟨h.hashing_eq, hremoved⟩, fun hsome => ⟨h.hashing_eq, hrestored ?_⟩⟩
  exact (Option.isSome_map ..).symm.trans hsome

omit [EquivBEq α] in
/-- A script that is confined to the member touches nothing else. -/
theorem UpToMember.runScript (h : s.UpToMember hashing storable t x place)
    {script : List (CursorAction Empty)}
    (hscript : CursorInterface.Confined (fun y => (y == x) = true) script s.openCursor) :
    (CursorInterface.runScript script s.openCursor).2.UpToMember hashing storable t x place :=
  hscript.runScript (R := Cursor.UpToMember hashing storable t x place) (fun _ h => h.next)
    (fun _ h hconfined => (h.remove hE room hconfined).1) (fun value => nomatch value) h.openCursor

omit [EquivBEq α] in
/-- A script that ends with the removal of the member restores the table. -/
theorem UpToMember.restored_runScript (h : s.UpToMember hashing storable t x place)
    {script : List (CursorAction Empty)}
    (hscript : CursorInterface.EndsWithRemoval (fun y => (y == x) = true) script s.openCursor) :
    (CursorInterface.runScript script s.openCursor).2.set.Restored hashing t := by
  obtain ⟨before, rfl, hbefore, y, hremoved, hy⟩ := hscript
  rw [CursorInterface.state_runScript_append]
  refine ((h.runScript hE room hbefore).remove hE room fun z hz => ?_).2 (Option.isSome_of_mem hremoved)
  rw [Option.mem_unique hz hremoved, hy]

/-! ### Operations -/

/-- **What concerns only the member leaves the set as it was but for the member**, if such a member can be
stored. -/
theorem UpToMember.perform (h : s.UpToMember hashing storable t x place)
    (hstorable : ∀ y, (y == x) = true → storable y ()) {op : Operation σ η α} (hop : op.Concerns x s) :
    (op.perform s).state.UpToMember hashing storable t x place := by
  cases op with
  | contains | containsAll | get? => exact Call.state_searching (fun _ => h) h
  | len => exact h
  | copy => exact ⟨h.hashing_eq, h.table.congr rfl rfl rfl⟩
  | insert y => exact h.insert hE room hop (hstorable y hop)
  -- the list has no other member
  | extend ys => exact h.extend hE room fun y hy => ⟨hop y hy, hstorable y (hop y hy)⟩
  | erase y | take y => exact Call.state_searching (fun _ => h) (h.restored_take hE room hop).upToMember
  | eraseAll ys => exact Call.state_searching (fun _ => h) (h.eraseAll hE room hop)
  | retain keeps => exact h.retain hE room hop
  | difference | clear | compact => exact hop.elim
  | cursor script => exact (h.runScript hE room hop).set

/-- Where the search for the member never ends, it is not there. -/
theorem UpToMember.restored_of_endless (h : s.UpToMember hashing storable t x place)
    (hxs : ∀ y ∈ xs, (y == x) = true) (hmem : .endless ∈ xs.map s.locate) : s.Restored hashing t := by
  obtain ⟨y, hy, hlocate⟩ := List.mem_map.mp hmem
  exact h.restored_of_find? hE room (hxs y hy) (Table.find?_of_endless hlocate)

/-- **What removes the member leaves the set as it was.** -/
theorem UpToMember.restored (h : s.UpToMember hashing storable t x place) {op : Operation σ η α}
    (hop : op.Removes x s) : (op.perform s).state.Restored hashing t := by
  cases op with
  | erase y | take y =>
      have hsame : ∀ z ∈ [y], (z == x) = true := fun z hz => List.mem_singleton.mp hz ▸ hop
      exact Call.state_searching (h.restored_of_endless hE room hsame) (h.restored_take hE room hop)
  | eraseAll ys =>
      exact Call.state_searching
        (fun hmem => h.restored_of_endless hE room hop.2 (List.mem_of_mem_take hmem))
        (h.restored_eraseAll hE room hop.1 hop.2)
  | cursor script => exact h.restored_runScript hE room hop
  | _ => exact hop.elim

end MemberSet

/-! ### Sets of words -/

namespace WordSet

variable {α : Type} [SignedWord α]

/-- The operation reads the set, or it adds or removes nothing but a member. -/
def Operation.Concerns (x : α) (op : Operation α) (s : WordSet α) : Prop :=
  match op with
  | .contains _ | .containsAll _ | .len => True
  | .insert y | .erase y => y = x
  | .extend ys | .eraseAll ys => ∀ y ∈ ys, y = x
  | .retain keeps => ∀ y, keeps y = .answers false → y = x
  | .difference _ | .clear | .compact => False
  | .cursor script => CursorInterface.Confined (· = x) script s.openCursor

/-- The operation removes a member. -/
def Operation.Removes (x : α) (op : Operation α) (s : WordSet α) : Prop :=
  match op with
  | .erase y => y = x
  | .eraseAll ys => ys ≠ [] ∧ ∀ y ∈ ys, y = x
  | .cursor script => CursorInterface.EndsWithRemoval (· = x) script s.openCursor
  | _ => False

/-- The members that lie in slots. -/
abbrev Storable (x : α) (_ : Unit) : Prop := x ≠ SignedWord.minusOne

variable {t : Table α} {marked : Bool} {s : WordSet α} {x y : α} {xs : List α} {place : Nat}

/-- The member is absent from a set, and there is room for it. -/
structure RoomFor (t : Table α) (marked : Bool) (x : α) (place : Nat) : Prop where
  table : MemberSet.RoomFor ({} : Spreading) Storable t x place
  unmarked : x = SignedWord.minusOne → marked = false

/-- A set is the one with the table `t` and the mark, but for the member and what is left in vacant slots. -/
structure UpToMember (t : Table α) (marked : Bool) (x : α) (place : Nat) (s : WordSet α) : Prop where
  inner : s.inner.UpToMember ({} : Spreading) Storable t x place
  marked_eq : x ≠ SignedWord.minusOne → s.marked = marked

/-- A set is the one with the table `t` and the mark, but for what is left in vacant slots. -/
structure Restored (t : Table α) (marked : Bool) (s : WordSet α) : Prop where
  inner : s.inner.Restored ({} : Spreading) t
  marked_eq : s.marked = marked

theorem Restored.upToMember (h : s.Restored t marked) : s.UpToMember t marked x place :=
  ⟨h.inner.upToMember, fun _ => h.marked_eq⟩

/-- Minus one lies in no slot. -/
theorem ne_minusOne_of_entryAt? {e : α × Unit} {i : Nat} (he : t.entryAt? MemberSlot.layout i = some e) :
    e.1 ≠ SignedWord.minusOne := by
  change (if _ = _ then none else some (_, ())) = some e at he
  split at he
  · cases he
  · next hne =>
    cases he
    exact hne

/-- Minus one has no slot. -/
theorem find?_minusOne (s : WordSet α) : s.inner.find? SignedWord.minusOne = none := by
  refine Option.eq_none_iff_forall_ne_some.mpr fun i hfind => ?_
  obtain ⟨e, he, hkey⟩ := Table.exists_entryAt?_of_find? hfind BEq.rfl
  exact ne_minusOne_of_entryAt? he (eq_of_beq hkey)

theorem find?_of_contains (h : s.contains x = false) : s.inner.find? x = none := by
  by_cases hx : x = SignedWord.minusOne
  · rw [hx, find?_minusOne]
  · rw [contains, if_neg hx] at h
    exact MemberSet.find?_of_contains h

/-- What concerns minus one leaves the table as it was. -/
theorem UpToMember.restored_inner (h : s.UpToMember t marked SignedWord.minusOne place) :
    s.inner.Restored ({} : Spreading) t := by
  refine ⟨rfl, ?_⟩
  cases h.inner.table with
  | absent like => exact like
  | present same stored like => exact absurd (eq_of_beq same) stored

variable (room : RoomFor t marked x place)
include room

/-- Where the member is absent, the table and the mark are what they were. -/
theorem UpToMember.restored_of_contains (h : s.UpToMember t marked x place) (habsent : s.contains x = false) :
    s.Restored t marked := by
  refine ⟨h.inner.restored_of_find? (wordMember_lawful {}) room.table BEq.rfl (find?_of_contains habsent), ?_⟩
  by_cases hx : x = SignedWord.minusOne
  · rw [contains, if_pos hx] at habsent
    rw [habsent, room.unmarked hx]
  · exact h.marked_eq hx

/-- The member is put into its place, or minus one is marked. -/
theorem UpToMember.insert (h : s.UpToMember t marked x place) :
    (s.insert x).state.UpToMember t marked x place := by
  rw [WordSet.insert]
  split
  · next hx => exact ⟨h.inner, fun hne => absurd hx hne⟩
  · next hx => exact ⟨h.inner.insert (wordMember_lawful {}) room.table BEq.rfl hx, h.marked_eq⟩

/-- **Removing the member restores the set**, its mark included. -/
theorem UpToMember.restored_erase (h : s.UpToMember t marked x place) :
    (s.erase x).2.Restored t marked := by
  rw [WordSet.erase]
  split
  · next hx =>
    subst hx
    exact ⟨h.restored_inner, (room.unmarked rfl).symm⟩
  · next hx => exact ⟨h.inner.restored_take (wordMember_lawful {}) room.table BEq.rfl, h.marked_eq hx⟩

theorem UpToMember.eraseAll (h : s.UpToMember t marked x place) (hxs : ∀ y ∈ xs, y = x) :
    (s.eraseAll xs).2.UpToMember t marked x place := by
  induction xs generalizing s with
  | nil => exact h
  | cons y rest ih =>
      obtain rfl := hxs y List.mem_cons_self
      exact ih (h.restored_erase room).upToMember fun z hz => hxs z (List.mem_cons_of_mem y hz)

theorem UpToMember.restored_eraseAll (h : s.UpToMember t marked x place) (hne : xs ≠ [])
    (hxs : ∀ y ∈ xs, y = x) : (s.eraseAll xs).2.Restored t marked := by
  induction xs generalizing s with
  | nil => exact absurd rfl hne
  | cons y rest ih =>
      obtain rfl := hxs y List.mem_cons_self
      have hfirst := h.restored_erase room
      cases rest with
      | nil => exact hfirst
      | cons z rest => exact ih hfirst.upToMember nofun fun z hz => hxs z (List.mem_cons_of_mem y hz)

/-- A predicate that rejects no other member removes at most this one, or the mark. -/
theorem UpToMember.retain (h : s.UpToMember t marked x place) {keeps : α → Reply Bool}
    (hkeeps : ∀ y, keeps y = .answers false → y = x) :
    (s.retain keeps).state.UpToMember t marked x place := by
  have hinner := h.inner.retain (wordMember_lawful {}) room.table fun y hy => beq_iff_eq.mpr (hkeeps y hy)
  have hswept : ((s.inner.retain keeps).within fun inner => { s with inner }).state.UpToMember t marked x
      place := ⟨hinner, h.marked_eq⟩
  unfold WordSet.retain
  dsimp only
  split
  · exact hswept
  · split
    · next hmarked =>
      cases hreply : keeps SignedWord.minusOne with
      | panics => exact hswept
      | answers kept =>
          refine ⟨hinner, fun hne => ?_⟩
          -- minus one is kept, as it is not the member
          cases kept with
          | true => exact hmarked.symm.trans (h.marked_eq hne)
          | false => exact absurd (hkeeps _ hreply).symm hne
    · exact hswept

/-! ### Cursors over a table and the place of minus one -/


omit room in
/-- A cursor over such a set. -/
structure Cursor.UpToMember (t : Table α) (marked : Bool) (x : α) (place : Nat) (c : Cursor α) : Prop where
  inner : c.inner.UpToMember ({} : Spreading) Storable t x place
  marked_eq : x ≠ SignedWord.minusOne → c.marked = marked

omit room in
theorem Cursor.UpToMember.next {c : Cursor α} (h : c.UpToMember t marked x place) :
    c.next.2.UpToMember t marked x place := by
  have hinner := h.inner.next
  unfold Cursor.next
  generalize c.inner.next = step at hinner
  obtain ⟨produced, inner⟩ := step
  cases produced with
  | some y => exact ⟨hinner, h.marked_eq⟩
  | none =>
      dsimp only
      split
      · exact ⟨hinner, h.marked_eq⟩
      · exact ⟨hinner, h.marked_eq⟩

/-- A cursor removes the member from the table, or the mark, where it is at minus one. -/
theorem Cursor.UpToMember.remove {c : Cursor α} (h : c.UpToMember t marked x place)
    (hconfined : ∀ y ∈ c.remove.1, y = x) : c.remove.2.UpToMember t marked x place ∧
      (c.remove.1.isSome → c.remove.2.set.Restored t marked) := by
  rw [Cursor.remove] at hconfined ⊢
  split at hconfined
  · next hmarker =>
    obtain rfl := hconfined _ rfl
    have hset : c.set.UpToMember t marked SignedWord.minusOne place := ⟨h.inner.set, h.marked_eq⟩
    rw [if_pos hmarker]
    exact ⟨⟨h.inner, fun hne => absurd rfl hne⟩, fun _ => ⟨hset.restored_inner, (room.unmarked rfl).symm⟩⟩
  · next hmarker =>
    obtain ⟨hremoved, hrestored⟩ :=
      h.inner.remove (wordMember_lawful {}) room.table fun y hy => beq_iff_eq.mpr (hconfined y hy)
    rw [if_neg hmarker]
    -- what is removed from the table is not minus one, so the mark is what it was
    refine ⟨⟨hremoved, h.marked_eq⟩, fun hsome => ⟨hrestored hsome, h.marked_eq ?_⟩⟩
    obtain ⟨e, he⟩ := Option.isSome_iff_exists.mp ((Option.isSome_map ..).symm.trans hsome)
    obtain ⟨i, hslot⟩ := Table.Cursor.exists_entryAt?_of_remove he
    exact hconfined e.1 (Option.mem_map_of_mem Prod.fst he) ▸ ne_minusOne_of_entryAt? hslot

theorem UpToMember.runScript (h : s.UpToMember t marked x place) {script : List (CursorAction Empty)}
    (hscript : CursorInterface.Confined (· = x) script s.openCursor) :
    (CursorInterface.runScript script s.openCursor).2.UpToMember t marked x place :=
  hscript.runScript (R := Cursor.UpToMember t marked x place) (fun _ h => h.next)
    (fun _ h hconfined => (h.remove room hconfined).1) (fun value => nomatch value)
    ⟨h.inner.openCursor, h.marked_eq⟩

theorem UpToMember.restored_runScript (h : s.UpToMember t marked x place) {script : List (CursorAction Empty)}
    (hscript : CursorInterface.EndsWithRemoval (· = x) script s.openCursor) :
    (CursorInterface.runScript script s.openCursor).2.set.Restored t marked := by
  obtain ⟨before, rfl, hbefore, y, hremoved, hy⟩ := hscript
  rw [CursorInterface.state_runScript_append]
  refine ((h.runScript room hbefore).remove room fun z hz => ?_).2 (Option.isSome_of_mem hremoved)
  rw [Option.mem_unique hz hremoved, hy]

/-! ### Operations on a set of words -/

/-- **What concerns only the member leaves the set as it was but for the member.** -/
theorem UpToMember.perform (h : s.UpToMember t marked x place) {op : Operation α} (hop : op.Concerns x s) :
    (op.perform s).state.UpToMember t marked x place := by
  cases op with
  | contains | containsAll => exact Call.state_searching (fun _ => h) h
  | len => exact h
  | insert y =>
      obtain rfl : y = x := hop
      exact h.insert room
  | extend ys =>
      refine Change.state_forEach h fun y hy s h => ?_
      obtain rfl := hop y hy
      exact h.insert room
  | erase y =>
      obtain rfl : y = x := hop
      exact Call.state_searching (fun _ => h) (h.restored_erase room).upToMember
  | eraseAll ys => exact Call.state_searching (fun _ => h) (h.eraseAll room hop)
  | retain keeps => exact h.retain room hop
  | difference | clear | compact => exact hop.elim
  | cursor script =>
      have hleft := h.runScript room hop
      exact ⟨hleft.inner.set, hleft.marked_eq⟩

/-- Where the search for the member never ends, it is not there. -/
theorem UpToMember.restored_of_endless (h : s.UpToMember t marked x place) (hxs : ∀ y ∈ xs, y = x)
    (hmem : .endless ∈ xs.flatMap (Operation.searches s)) : s.Restored t marked := by
  obtain ⟨y, hy, hmem⟩ := List.mem_flatMap.mp hmem
  obtain rfl := hxs y hy
  refine h.restored_of_contains room ?_
  rw [Operation.searches] at hmem
  split at hmem
  · cases hmem
  · next hne =>
    have hfind : s.inner.find? y = none := Table.find?_of_endless (List.mem_singleton.mp hmem).symm
    rw [contains, if_neg hne, MemberSet.contains, hfind, Option.isSome_none]

/-- **What removes the member leaves the set as it was.** -/
theorem UpToMember.restored (h : s.UpToMember t marked x place) {op : Operation α} (hop : op.Removes x s) :
    (op.perform s).state.Restored t marked := by
  cases op with
  | erase y =>
      obtain rfl : y = x := hop
      have hsame : ∀ z ∈ [y], z = y := fun z hz => List.mem_singleton.mp hz
      refine Call.state_searching (fun hmem => h.restored_of_endless room hsame ?_) (h.restored_erase room)
      rwa [List.flatMap_singleton]
  | eraseAll ys =>
      exact Call.state_searching (fun hmem => h.restored_of_endless room hop.2 (List.mem_of_mem_take hmem))
        (h.restored_eraseAll room hop.1 hop.2)
  | cursor script => exact h.restored_runScript room hop
  | _ => exact hop.elim

end WordSet

end LinearProbing
