import LinearProbing.Proofs.MemberSet.Operation

/-!
# LinearProbing.Proofs.MemberSet.Represents

**Sets in a probing table are finite sets.** `MemberSet.Represents` relates a set to the finite set of its
members. Every operation keeps the relation and gives what its specification gives
(`Represents.perform`), if the slots are lawful for the hashing of the set and can store every member; the
only exception is an insertion that cannot grow the table.
-/

namespace LinearProbing

/-- A member as an entry of a table. -/
def asEntry {α : Type} (x : α) : α × Unit := (x, ())

/-- Members are entries without a value, and back. -/
@[simp] theorem map_fst_map_asEntry {α : Type} (xs : List α) :
    (xs.map asEntry).map Prod.fst = xs := by
  rw [List.map_map]
  exact List.map_id xs

@[simp] theorem map_asEntry_map_fst {α : Type} (l : List (α × Unit)) :
    (l.map Prod.fst).map asEntry = l := by
  rw [List.map_map]
  exact List.map_id l

namespace MemberSet

variable {σ η α : Type} [MemberSlot σ α] [KeyHash η α] [BEq α]

/-- Slots that can store some members, with a way to hash them that agrees with their equality. -/
abbrev LawfulSlots (σ : Type) {η α : Type} [MemberSlot σ α] [KeyHash η α] [BEq α] (hashing : η)
    (storable : α → Unit → Prop) : Prop :=
  (MemberSlot.layout : EntryLayout σ α Unit).Lawful (KeyHash.hash hashing) storable

variable {hashing : η} {storable : α → Unit → Prop} {within : Prop}
variable {s : MemberSet σ η α} {S T : FiniteSet α} {t : Table σ}
variable {i : Nat} {x y : α} {xs rest : List α}

/-- A usable set with the members of a finite set. -/
structure Represents (hashing : η) (within : Prop) (s : MemberSet σ η α) (S : FiniteSet α) :
    Prop where
  hashing_eq : s.hashing = hashing
  table : s.table.Represents MemberSlot.layout (KeyHash.hash hashing) within (S.members.map asEntry)

/-- A set whose table holds too many members. -/
structure Overfull (hashing : η) (within : Prop) (s : MemberSet σ η α) : Prop where
  hashing_eq : s.hashing = hashing
  table : s.table.Overfull MemberSlot.layout (KeyHash.hash hashing) within

/-- A change of a set does what is specified of it. -/
abbrev Changes (hashing : η) (within : Prop) {β : Type} (c : Change (MemberSet σ η α) β)
    (d : Change (FiniteSet α) β) : Prop :=
  c.Tracks (Represents hashing within) (Overfull hashing within) d

/-- A call on a set does what is specified of it. -/
abbrev Calls (hashing : η) (within : Prop) {γ β : Type} (c : Call (MemberSet σ η α) γ β)
    (d : Call (FiniteSet α) γ β) : Prop :=
  c.Tracks (Represents hashing within) (Overfull hashing within) d

/-- What a set stands for is what its table stands for. -/
theorem Represents.withTable (h : s.Represents hashing within S)
    (ht : t.Represents MemberSlot.layout (KeyHash.hash hashing) within (T.members.map asEntry)) :
    (s.withTable t).Represents hashing within T :=
  ⟨h.hashing_eq, ht⟩

/-- The order of the members of a finite set means nothing. -/
theorem Represents.perm (h : s.Represents hashing within S) (hT : S.members.Perm T.members) :
    s.Represents hashing within T :=
  ⟨h.hashing_eq, h.table.perm (hT.map asEntry)⟩

/-- The members of a set are those of the finite set, in some order. -/
theorem Represents.members_perm (h : s.Represents hashing within S) :
    s.members.Perm S.members := by
  have := h.table.entries.map Prod.fst
  rwa [map_fst_map_asEntry] at this

/-! ### Construction -/

/-- A new set stands for the empty one. -/
theorem represents_ofSizing (hE : LawfulSlots σ hashing storable) {sizing : Sizing}
    (hs : sizing.Valid) (mode : IterationMode) :
    (ofSizing sizing mode hashing : MemberSet σ η α).Represents hashing within {} :=
  ⟨rfl, Table.represents_ofSizing hE hs mode⟩

/-- A new set is empty. -/
theorem represents_of_ofConfig (hE : LawfulSlots σ hashing storable) {config : TableConfig}
    (h : ofConfig config hashing = .ok s) : s.Represents hashing within {} := by
  obtain ⟨sizing, hsizing, rfl⟩ := exists_of_map_eq_ok h
  exact represents_ofSizing hE (Sizing.valid_of_ofConfig hsizing) config.mode

omit [KeyHash η α] [BEq α] in
theorem ofConfig_default (hashing : η) :
    ofConfig {} hashing = .ok (empty hashing : MemberSet σ η α) := by
  rw [ofConfig, Sizing.ofConfig_default]
  rfl

/-! ### Searching -/

/-- A member is present if its entry is. -/
theorem present_of_entries {l : List (α × Unit)}
    (h : FiniteMap.Present ⟨S.members.map asEntry⟩ x y () l) : S.Present x y (l.map Prod.fst) where
  split := by
    have := h.split.map Prod.fst
    rwa [map_fst_map_asEntry] at this
  same := h.same
  others z hz := by
    obtain ⟨e, he, rfl⟩ := List.mem_map.mp hz
    exact h.others e he

variable [EquivBEq α]

/-- What the search for a member finds out. -/
theorem Represents.sought (h : s.Represents hashing within S)
    (hE : LawfulSlots σ hashing storable) (x : α) :
    (∃ i y rest, s.locate x = .found i ∧
        s.table.entryAt? MemberSlot.layout i = some (asEntry y) ∧ S.Present x y rest) ∨
      ∃ i, s.locate x = .vacant i ∧
        EntryLayout.Located MemberSlot.layout (KeyHash.hash hashing) s.table.slots x (.vacant i) ∧
          S.Absent x := by
  obtain rfl := h.hashing_eq
  have hsought : Table.Sought MemberSlot.layout (KeyHash.hash s.hashing) s.table
      (S.members.map asEntry) x (s.locate x) := h.table.sought hE x
  generalize s.locate x = outcome at hsought ⊢
  cases hsought with
  | found entry present => exact Or.inl ⟨_, _, _, rfl, entry, present_of_entries present⟩
  | vacant located absent =>
      exact Or.inr ⟨_, rfl, located, fun y hy => absent (asEntry y) (List.mem_map_of_mem hy)⟩

/-- Every search ends. -/
theorem Represents.locate_ne_endless (h : s.Represents hashing within S)
    (hE : LawfulSlots σ hashing storable) (x : α) : s.locate x ≠ .endless := by
  obtain ⟨i, y, rest, hlocate, -, -⟩ | ⟨i, hlocate, -, -⟩ := h.sought hE x <;> rw [hlocate] <;> exact nofun

theorem Represents.endless_notMem (h : s.Represents hashing within S)
    (hE : LawfulSlots σ hashing storable) (xs : List α) : Probe.endless ∉ xs.map s.locate := by
  intro hmem
  obtain ⟨x, -, hx⟩ := List.mem_map.mp hmem
  exact h.locate_ne_endless hE x hx

/-- A member is found with its stored form, or it is absent. -/
theorem Represents.find?_cases (h : s.Represents hashing within S)
    (hE : LawfulSlots σ hashing storable) (x : α) :
    (∃ i y rest, s.find? x = some i ∧
        s.table.entryAt? MemberSlot.layout i = some (asEntry y) ∧ S.Present x y rest) ∨
      (s.find? x = none ∧ S.Absent x) := by
  obtain ⟨i, y, rest, hlocate, hentry, hpresent⟩ | ⟨i, hlocate, -, habsent⟩ := h.sought hE x
  · exact Or.inl ⟨i, y, rest, Table.find?_of_found hlocate, hentry, hpresent⟩
  · exact Or.inr ⟨Table.find?_of_vacant hlocate, habsent⟩

/-- A set contains what the finite set contains. -/
theorem Represents.contains_eq (h : s.Represents hashing within S)
    (hE : LawfulSlots σ hashing storable) (x : α) : s.contains x = S.contains x := by
  rw [MemberSet.contains]
  obtain ⟨i, y, rest, hfind, hentry, hpresent⟩ | ⟨hfind, habsent⟩ := h.find?_cases hE x
  · rw [hfind, hpresent.contains]
    rfl
  · rw [hfind, habsent.contains]
    rfl

theorem Represents.containsAll_eq (h : s.Represents hashing within S)
    (hE : LawfulSlots σ hashing storable) (xs : List α) :
    s.containsAll xs = xs.all S.contains := by
  rw [MemberSet.containsAll, funext (h.contains_eq hE)]

omit [KeyHash η α] [BEq α] [EquivBEq α] in
theorem memberAt?_of_entryAt? (he : s.table.entryAt? MemberSlot.layout i = some (asEntry y)) :
    s.memberAt? i = some y := by
  rw [memberAt?, MemberSet.layout, he]
  rfl

omit [EquivBEq α] in
/-- The length of a set is the number of its members. -/
theorem Represents.len_eq (h : s.Represents hashing within S) : s.len = S.size :=
  h.table.len_eq_length.trans (List.length_map ..)

theorem Represents.distinct (h : s.Represents hashing within S) : S.Distinct :=
  List.pairwise_map.mp h.table.distinct

/-- The stored form of a member is what is given back. -/
theorem Represents.get?_eq (h : s.Represents hashing within S)
    (hE : LawfulSlots σ hashing storable) (x : α) : s.get? x = S.find? x := by
  rw [MemberSet.get?]
  obtain ⟨i, y, rest, hfind, hentry, hpresent⟩ | ⟨hfind, habsent⟩ := h.find?_cases hE x
  · rw [hfind, hpresent.find?]
    exact memberAt?_of_entryAt? hentry
  · rw [hfind, habsent.find?]
    rfl

/-! ### Adding -/

/-- **An insertion adds a member** that is not there, and keeps the stored form of one that is. -/
theorem Represents.insert (h : s.Represents hashing within S)
    (hE : LawfulSlots σ hashing storable) (hs : storable x ()) :
    Changes hashing within (s.insert x) (.done (S.insert x) (! S.contains x)) := by
  rw [MemberSet.insert]
  obtain ⟨i, y, rest, hlocate, hentry, hpresent⟩ | ⟨i, hlocate, hloc, habsent⟩ := h.sought hE x
  · rw [hlocate, hpresent.insert, hpresent.contains]
    exact .done h false
  · rw [hlocate, habsent.contains, hashOf, h.hashing_eq]
    rcases h.table.insertAt hE hloc hs with ⟨j, hresult, -, hstate⟩ | ⟨hresult, hstate⟩
    · refine Or.inl (.of_ok (congrArg (Except.map fun _ => true) hresult) rfl (h.withTable ?_))
      show Table.Represents _ _ _ _ ((S.insert x).members.map asEntry)
      rw [habsent.insert]
      exact hstate
    · exact Or.inr ⟨congrArg (Except.map fun _ => true) hresult, h.hashing_eq, hstate⟩

/-- A list is inserted member by member. -/
theorem Represents.extend (h : s.Represents hashing within S)
    (hE : LawfulSlots σ hashing storable) (hs : ∀ x ∈ xs, storable x ()) :
    Changes hashing within (s.extend xs) (.done (xs.foldl FiniteSet.insert S) ()) := by
  rw [← Change.forEach_done]
  exact Change.Tracks.forEach h fun x hx {_ _} hstate => hstate.insert hE (hs x hx)

/-! ### Removing -/

/-- A member that is taken out is given back in its stored form. -/
theorem Represents.take (h : s.Represents hashing within S) (hE : LawfulSlots σ hashing storable)
    (x : α) :
    (s.take x).1 = S.find? x ∧ (s.take x).2.Represents hashing within (S.erase x) := by
  rw [MemberSet.take]
  obtain ⟨i, y, rest, hfind, hentry, hpresent⟩ | ⟨hfind, habsent⟩ := h.find?_cases hE x
  · rw [hfind, hpresent.find?]
    have herase := h.table.eraseAt hE hentry (hpresent.split.map asEntry)
    exact ⟨memberAt?_of_entryAt? hentry,
      h.withTable (herase.perm (hpresent.erase.map asEntry).symm)⟩
  · rw [hfind, habsent.find?, habsent.erase]
    exact ⟨rfl, h⟩

/-- A removal says whether the member was there. -/
theorem Represents.erase (h : s.Represents hashing within S) (hE : LawfulSlots σ hashing storable)
    (x : α) :
    (s.erase x).1 = S.contains x ∧ (s.erase x).2.Represents hashing within (S.erase x) := by
  obtain ⟨hfind, hstate⟩ := h.take hE x
  refine ⟨?_, hstate⟩
  show (s.take x).1.isSome = S.contains x
  rw [hfind]
  obtain ⟨i, y, rest, -, -, hpresent⟩ | ⟨-, habsent⟩ := h.find?_cases hE x
  · rw [hpresent.find?, hpresent.contains, Option.isSome_some]
  · rw [habsent.find?, habsent.contains, Option.isSome_none]

/-- Removing a list says whether any of its members was there. -/
theorem Represents.eraseAll (hE : LawfulSlots σ hashing storable) (xs : List α)
    (h : s.Represents hashing within S) :
    (s.eraseAll xs).1 = (S.eraseAll xs).1 ∧
      (s.eraseAll xs).2.Represents hashing within (S.eraseAll xs).2 := by
  induction xs generalizing s S with
  | nil => exact ⟨rfl, h⟩
  | cons x rest ih =>
      obtain ⟨hfound, herased⟩ := h.erase hE x
      obtain ⟨hothers, hstate⟩ := ih herased
      refine ⟨?_, hstate⟩
      show ((s.erase x).1 || ((s.erase x).2.eraseAll rest).1) = _
      rw [hothers, hfound]
      rfl

omit [EquivBEq α] in
theorem Represents.clear (h : s.Represents hashing within S) (hE : LawfulSlots σ hashing storable) :
    s.clear.Represents hashing within {} :=
  h.withTable (h.table.clearWith _ fun _ => hE.entryIn?_empty)

/-- Compaction moves the members, and changes none. -/
theorem Represents.compact (h : s.Represents hashing within S)
    (hE : LawfulSlots σ hashing storable) : Changes hashing within s.compact (.done S ()) := by
  rcases h.table.compact hE with ⟨hresult, hstate⟩ | ⟨hresult, hstate⟩
  · exact .inl (.of_ok hresult rfl (h.withTable hstate))
  · exact .inr ⟨hresult, h.hashing_eq, hstate⟩

omit [EquivBEq α] in
theorem Represents.copy (h : s.Represents hashing within S) : s.copy.Represents hashing within S :=
  h.withTable (h.table.congr rfl rfl rfl)

/-- The difference is a new set: all its members are added one by one. -/
theorem Represents.difference (h : s.Represents hashing within S)
    (hE : LawfulSlots σ hashing storable) (hs : ∀ x ∈ s.members, storable x ())
    (other : MemberSet σ η α) :
    Changes hashing within (s.difference other) (.done (S.without other.contains) ()) := by
  rw [MemberSet.difference, h.hashing_eq]
  have hdistinct := (h.perm h.members_perm.symm).distinct
  refine ((represents_ofSizing hE Sizing.valid_standard _).extend hE fun x hx =>
    hs x (List.mem_of_mem_filter hx)).restate fun u hu => hu.perm ?_
  refine (FiniteSet.foldl_insert_perm (hdistinct.filter _) fun _ _ => List.forall_mem_nil _).trans ?_
  rw [List.append_nil]
  exact h.members_perm.filter _

/-! ### Going through the members -/

omit [KeyHash η α] [BEq α] [EquivBEq α] in
/-- The members in the order in which a scan produces them. -/
def scanOrder (s : MemberSet σ η α) : List α := (s.layout.scanOrder s.table.slots).map Prod.fst

omit [EquivBEq α] in
/-- A scan passes each member once. -/
theorem Represents.scanOrder_perm (h : s.Represents hashing within S) :
    s.scanOrder.Perm S.members :=
  ((EntryLayout.scanOrder_perm h.table.exists_vacantAt).map Prod.fst).trans h.members_perm

/-- The members that are not to be kept are removed, in the order of a scan. -/
theorem Represents.retain (h : s.Represents hashing within S) (hE : LawfulSlots σ hashing storable)
    (keeps : α → Reply Bool) :
    (s.retain keeps).Agrees (Represents hashing within) (FiniteSet.retain s.scanOrder keeps) := by
  -- the table is asked about entries, the predicate about their keys
  have herase := h.table.eraseWhere hE fun x _ => (keeps x).map not
  rw [FiniteSet.retain, scanOrder, sift_map]
  have hstate : ∀ u l, u.Represents MemberSlot.layout (KeyHash.hash hashing) within l →
      (s.withTable u).Represents hashing within ⟨l.map Prod.fst⟩ := by
    intro u l hu
    refine h.withTable ?_
    rwa [map_asEntry_map_fst]
  exact ((herase.within hstate).mapCalls Prod.fst).map _

/-- A cursor over a set, and the walk that it is. -/
structure Scanned (hashing : η) (within : Prop) (c : Cursor σ η α) (w : Walk α Empty) : Prop where
  hashing_eq : c.source.hashing = hashing
  scanning : Table.Scanning MemberSlot.layout (KeyHash.hash hashing) within c.inner
    (w.ahead.map asEntry) (w.current.map asEntry) (w.behind.map asEntry)

omit [EquivBEq α] in
theorem Represents.openCursor (h : s.Represents hashing within S) :
    Scanned hashing within s.openCursor (FiniteSet.walk s.scanOrder) := by
  refine ⟨h.hashing_eq, ?_⟩
  show Table.Scanning _ _ _ _ (s.scanOrder.map asEntry) none []
  rw [scanOrder, map_asEntry_map_fst]
  exact h.table.openCursor

omit [EquivBEq α] in
/-- The set under a cursor has the members that the walk has left. -/
theorem Scanned.set {c : Cursor σ η α} {w : Walk α Empty} (h : Scanned hashing within c w) :
    c.set.Represents hashing within ⟨w.contents⟩ := by
  refine ⟨h.hashing_eq, ?_⟩
  have hcontents := h.scanning.contents
  rwa [Option.toList_map, ← List.map_append, ← List.map_append] at hcontents

omit [EquivBEq α] in
theorem Scanned.next {c : Cursor σ η α} {w : Walk α Empty} (h : Scanned hashing within c w) :
    c.next.1 = w.next.1 ∧ Scanned hashing within c.next.2 w.next.2 := by
  obtain ⟨hnext, hscanning⟩ := h.scanning.next
  rw [List.head?_map] at hnext
  rw [List.head?_map, ← List.map_tail, Option.toList_map, ← List.map_append] at hscanning
  refine ⟨?_, h.hashing_eq, hscanning⟩
  refine (congrArg (Option.map Prod.fst) hnext).trans ?_
  rw [Option.map_map]
  exact Option.map_id'

/-- A cursor removes the member that it is at. -/
theorem Scanned.remove {c : Cursor σ η α} {w : Walk α Empty} (h : Scanned hashing within c w)
    (hE : LawfulSlots σ hashing storable) :
    c.remove.1 = w.remove.1 ∧ Scanned hashing within c.remove.2 w.remove.2 := by
  obtain ⟨hremoved, hscanning⟩ := h.scanning.remove hE
  refine ⟨?_, h.hashing_eq, hscanning⟩
  refine (congrArg (Option.map Prod.fst) hremoved).trans ?_
  rw [Option.map_map]
  exact Option.map_id'

/-- A cursor over a set is a walk along its members. -/
theorem follows_walk (hE : LawfulSlots σ hashing storable) :
    CursorInterface.Follows (Scanned (σ := σ) (α := α) hashing within) where
  next h := h.next
  remove h := h.remove hE
  write value := nomatch value

/-! ### All operations -/

/-- **Every operation does what is specified of it.** -/
theorem Represents.perform (h : s.Represents hashing within S)
    (hE : LawfulSlots σ hashing EntryLayout.AnyEntry) (op : Operation σ η α) :
    ∃ d, op.Allows S d ∧ Calls hashing within (op.perform s) d := by
  refine ⟨_, ⟨s.scanOrder, h.scanOrder_perm, rfl⟩, ?_⟩
  -- the table has a vacant slot, so that the searches in front of the operations all end
  have hends : ∀ xs : List α, Probe.endless ∉ xs.map s.locate := h.endless_notMem hE
  have hends' : ∀ x, Probe.endless ∉ [s.locate x] := fun x => hends [x]
  cases op with
  | contains x =>
      rw [Operation.perform, Call.searching_of_notMem (hends' x), h.contains_eq hE]
      exact .done h _
  | containsAll xs =>
      rw [Operation.perform, Call.searching_of_notMem (hends xs), h.containsAll_eq hE]
      exact .done h _
  | get? x =>
      rw [Operation.perform, Call.searching_of_notMem (hends' x), h.get?_eq hE]
      exact .done h _
  | len =>
      rw [Operation.perform, h.len_eq]
      exact .done h _
  | insert x => exact .quiet ((h.insert hE (EntryLayout.anyEntry x ())).map _)
  | extend xs =>
      exact .quiet ((h.extend hE fun x _ => EntryLayout.anyEntry x ()).map fun _ => Answer.nothing)
  | erase x =>
      obtain ⟨hfound, hstate⟩ := h.erase hE x
      rw [Operation.perform, Call.searching_of_notMem (hends' x), hfound]
      exact .done hstate _
  | take x =>
      obtain ⟨htaken, hstate⟩ := h.take hE x
      rw [Operation.perform, Call.searching_of_notMem (hends' x), htaken]
      exact .done hstate _
  | eraseAll xs =>
      obtain ⟨hremoved, hstate⟩ := Represents.eraseAll hE xs h
      -- after the first member of the list there is a vacant slot in any case
      have hfirst : Probe.endless ∉ (xs.map s.locate).take 1 := mt List.mem_of_mem_take (hends xs)
      rw [Operation.perform, Call.searching_of_notMem hfirst, hremoved]
      exact .done hstate _
  | retain keeps => exact .inl (((h.retain hE keeps).mapCalls _).map _)
  -- what is not in the other set is collected in a new one
  | difference other =>
      exact .quiet ((h.difference hE (fun x _ => EntryLayout.anyEntry x ()) other).map
        fun _ => Answer.nothing)
  | clear => exact .done (h.clear hE) _
  | compact => exact .quiet ((h.compact hE).map _)
  | copy => exact .done h.copy _
  | cursor script =>
      obtain ⟨hanswers, hlast⟩ := (follows_walk hE).runScript script h.openCursor
      rw [Operation.perform, Operation.specify, hanswers]
      exact .done hlast.set _

end MemberSet

end LinearProbing
