import LinearProbing.Hash.Choice
import LinearProbing.Proofs.Reachable
import LinearProbing.Proofs.Scannable

/-!
# LinearProbing.Proofs.ExactScan

**Scans are exact** in every reachable state of the five containers: whatever is removed or rewritten
through a cursor meanwhile, it produces what the container held when the scan began, each entry once, in
the order of the slots downwards; and so does removal by a predicate (`exact_scan_of_run`).

In a set of words, minus one is not in a slot and comes last.
-/

namespace LinearProbing

open CursorInterface (Over removeWhere)
open Table.Cursor (forgetScan_setScan)

/-! ### Maps of words -/

namespace WordMap

variable {κ ν : Type} [SignedWord κ] [SignedWord ν] {missing : ν} {within : Prop}
variable {m : WordMap κ ν} {M : FiniteMap κ ν}

/-- How a map of words is scanned. -/
def scannable (missing : ν) : Scannable (WordMap κ ν) (Cursor κ ν) (κ × ν) (κ × ν) κ ν where
  layout := inlineLayout missing
  slots m := m.table.slots
  view e := e
  last _ := []
  contents := entries
  len := len
  openCursor := openCursor
  close := Cursor.map
  forget m := { m with table := m.table.forgetScan }

theorem Cursor.over :
    Over (inlineLayout missing) (fun c : Cursor κ ν => c.missing = missing) Cursor.inner id where
  next {c} hc := by
    obtain rfl := hc
    exact ⟨Option.map_id'.symm, rfl, rfl⟩
  remove {c} hc := by
    obtain rfl := hc
    exact ⟨rfl, rfl⟩

theorem Represents.length_entries (h : m.Represents missing within M) : m.entries.length = m.len :=
  h.entries_perm.length_eq.trans h.table.len_eq_length.symm

theorem Represents.scansAlong (h : m.Represents missing within M) :
    (scannable missing).ScansAlong (Spec.writes (κ := κ) missing) m m.scanOrder := by
  refine .of_follows follows_walk h.openCursor (fun hc => hc.map.entries_perm) ?_
    (h.scanOrder_perm.trans h.entries_perm.symm) h.length_entries
  have hdownward := Scannable.downward_scanOrder (C := scannable missing) h.table.exists_vacantAt
  obtain rfl := h.missing_eq
  have horder : (m.scanOrder.map fun e => e) ++ [] = m.scanOrder := by
    rw [List.append_nil, List.map_id']
  rwa [← horder]

theorem Represents.sweepsAlong (h : m.Represents missing within M) :
    (scannable missing).SweepsAlong (fun p (m : WordMap κ ν) => m.eraseWhere fun k v => p (k, v)) id id
      m m.scanOrder := by
  refine .of_follows follows_walk h.openCursor (fun hc => hc.map.entries_perm) (fun p => ?_)
    fun p => ?_
  · have hagrees := h.eraseWhere fun k v => p (k, v)
    rw [Call.map_id]
    exact ⟨⟨hagrees.result, hagrees.ends, hagrees.state.entries_perm⟩, hagrees.calls⟩
  · have hlen : m.scanOrder.length = m.table.len :=
      h.scanOrder_perm.length_eq.trans h.table.len_eq_length.symm
    obtain rfl := h.missing_eq
    obtain ⟨hmissing, htable⟩ := Cursor.over.eraseWhere_eq p (c := m.openCursor) (t := m.table) rfl rfl
    rw [← hlen] at hmissing htable
    exact congrArg₂ WordMap.mk hmissing htable

end WordMap

/-! ### Maps to values -/

namespace ValueMap

variable {σ η κ ν : Type} [EntrySlot σ κ ν] [KeyHash η κ] [BEq κ] [EquivBEq κ]
variable {hashing : η} {policy : NullPolicy} {within : Prop}
variable {m : ValueMap σ η κ ν} {M : FiniteMap κ (Option ν)}

omit [KeyHash η κ] [BEq κ] [EquivBEq κ] in
/-- How a map to values is scanned. -/
def scannable (σ η κ ν : Type) [EntrySlot σ κ ν] :
    Scannable (ValueMap σ η κ ν) (Cursor σ η κ ν) (κ × Option ν) σ κ (Option ν) where
  layout := EntrySlot.layout
  slots m := m.table.slots
  view e := e
  last _ := []
  contents := entries
  len := len
  openCursor := openCursor
  close := Cursor.map
  forget := copy

omit [KeyHash η κ] [BEq κ] [EquivBEq κ] in
theorem Cursor.over (source : ValueMap σ η κ ν) :
    Over (EntrySlot.layout : EntryLayout σ κ (Option ν)) (fun c : Cursor σ η κ ν => c.source = source)
      Cursor.inner id where
  next hc := ⟨Option.map_id'.symm, rfl, hc⟩
  remove hc := ⟨rfl, hc⟩

omit [EquivBEq κ] in
theorem Represents.length_entries (h : m.Represents hashing policy within M) :
    m.entries.length = m.len :=
  h.table.entries.length_eq.trans h.table.len_eq_length.symm

theorem Represents.scansAlong (h : m.Represents hashing policy within M) (hE : LawfulSlots σ hashing) :
    (scannable σ η κ ν).ScansAlong (Spec.walk []).writes m m.scanOrder := by
  refine .of_follows (follows_walk hE) h.openCursor (fun hc => hc.map.table.entries) ?_
    (h.scanOrder_perm.trans h.table.entries.symm) h.length_entries
  have hdownward := Scannable.downward_scanOrder (C := scannable σ η κ ν) h.table.exists_vacantAt
  have horder : (m.scanOrder.map fun e => e) ++ [] = m.scanOrder := by
    rw [List.append_nil, List.map_id']
  rwa [← horder]

theorem Represents.sweepsAlong (h : m.Represents hashing policy within M) (hE : LawfulSlots σ hashing) :
    (scannable σ η κ ν).SweepsAlong (fun p (m : ValueMap σ η κ ν) => m.eraseWhere fun k v => p (k, v))
      id id m m.scanOrder := by
  refine .of_follows (follows_walk hE) h.openCursor (fun hc => hc.map.table.entries) (fun p => ?_)
    fun p => ?_
  · have hagrees := h.eraseWhere hE fun k v => p (k, v)
    rw [Call.map_id]
    exact ⟨⟨hagrees.result, hagrees.ends, hagrees.state.table.entries⟩, hagrees.calls⟩
  · have hlen : m.scanOrder.length = m.table.len :=
      h.scanOrder_perm.length_eq.trans h.table.len_eq_length.symm
    obtain ⟨hsource, htable⟩ :=
      (Cursor.over m).eraseWhere_eq p (c := m.openCursor) (t := m.table) rfl rfl
    rw [← hlen] at hsource htable
    have hcopy := congrArg₂ ValueMap.withTable hsource htable
    exact hcopy

end ValueMap

/-! ### Sets -/

namespace MemberSet

variable {σ η α : Type} [MemberSlot σ α] [KeyHash η α] [BEq α] [EquivBEq α]
variable {hashing : η} {storable : α → Unit → Prop} {within : Prop}
variable {s : MemberSet σ η α} {S : FiniteSet α}

omit [KeyHash η α] [BEq α] [EquivBEq α] in
/-- How a set is scanned. -/
def scannable (σ η α : Type) [MemberSlot σ α] :
    Scannable (MemberSet σ η α) (Cursor σ η α) α σ α Unit where
  layout := MemberSlot.layout
  slots s := s.table.slots
  view := Prod.fst
  last _ := []
  contents := members
  len := len
  openCursor := openCursor
  close := Cursor.set
  forget := copy

omit [KeyHash η α] [BEq α] [EquivBEq α] in
theorem Cursor.over (source : MemberSet σ η α) :
    Over (MemberSlot.layout : EntryLayout σ α Unit) (fun c : Cursor σ η α => c.source = source)
      Cursor.inner Prod.fst where
  next hc := ⟨rfl, rfl, hc⟩
  remove hc := ⟨rfl, hc⟩

omit [EquivBEq α] in
theorem Represents.length_members (h : s.Represents hashing within S) : s.members.length = s.len :=
  (List.length_map ..).trans h.table.len_eq.symm

theorem Represents.scansAlong (h : s.Represents hashing within S) (hE : LawfulSlots σ hashing storable) :
    (scannable σ η α).ScansAlong (FiniteSet.walk []).writes s s.scanOrder := by
  refine .of_follows (follows_walk hE) h.openCursor (fun hc => hc.set.members_perm) ?_
    (h.scanOrder_perm.trans h.members_perm.symm) h.length_members
  have hdownward := Scannable.downward_scanOrder (C := scannable σ η α) h.table.exists_vacantAt
  have horder : s.scanOrder ++ [] = s.scanOrder := List.append_nil _
  rwa [← horder]

omit [EquivBEq α] in
/-- Removing by a predicate and by a cursor leaves the same set. -/
theorem Represents.removeWhere_eq (h : s.Represents hashing within S) (p : α → Reply Bool) :
    (removeWhere (fun x => (p x).map not) s.scanOrder.length s.openCursor).state.set.copy =
      (s.retain p).state.copy := by
  have hlen : s.scanOrder.length = s.table.len :=
    h.scanOrder_perm.length_eq.trans ((List.length_map ..).symm.trans h.table.len_eq_length.symm)
  obtain ⟨hsource, htable⟩ := (Cursor.over s).eraseWhere_eq (fun x => (p x).map not)
    (c := s.openCursor) (t := s.table) rfl rfl
  rw [← hlen] at hsource htable
  have hcopy := congrArg₂ MemberSet.withTable hsource htable
  exact hcopy

theorem Represents.sweepsAlong (h : s.Represents hashing within S) (hE : LawfulSlots σ hashing storable) :
    (scannable σ η α).SweepsAlong (fun p (s : MemberSet σ η α) => s.retain p) (·.map not) (fun _ => ())
      s s.scanOrder := by
  refine .of_follows (follows_walk hE) h.openCursor (fun hc => hc.set.members_perm) (fun p => ?_)
    h.removeWhere_eq
  have hagrees := h.retain hE p
  exact ⟨⟨hagrees.result, hagrees.ends, hagrees.state.members_perm⟩, hagrees.calls⟩

end MemberSet

/-! ### Sets of words -/

namespace WordSet

variable {α : Type} [SignedWord α] {within : Prop} {s : WordSet α} {S : FiniteSet α}

/-- How a set of words is scanned. -/
def scannable (α : Type) [SignedWord α] : Scannable (WordSet α) (Cursor α) α α α Unit where
  layout := MemberSlot.layout
  slots s := s.inner.table.slots
  view := Prod.fst
  last := marker
  contents := members
  len := len
  openCursor := openCursor
  close := Cursor.set
  forget s := { s with inner := s.inner.copy }

theorem Represents.scansAlong (h : s.Represents within S) :
    (scannable α).ScansAlong (FiniteSet.walk []).writes s s.scanOrder := by
  refine .of_follows follows_walk h.openCursor (fun hc => hc.set.members) ?_
    (h.scanOrder_perm.trans h.members.symm) (h.members.length_eq.trans h.len_eq.symm)
  exact Scannable.downward_scanOrder (C := scannable α) h.inner.table.exists_vacantAt

theorem copy_set_next (inner : MemberSet.Cursor α Spreading α) :
    inner.next.2.set.copy = inner.set.copy :=
  congrArg (MemberSet.withTable inner.source) (forgetScan_setScan inner.inner _)

/-- At the end of the table, what is left to do does not change the set in the table. -/
theorem removeWhere_past (selects : α → Reply Bool) {inner : MemberSet.Cursor α Spreading α}
    (hnext : inner.next.1 = none) (marked : Bool) :
    (removeWhere selects marked.toNat
      ({ inner, marked, pending := marked, atMarker := false } : Cursor α)).state.inner.set.copy =
        inner.set.copy := by
  -- going on at the end of the table touches only the scan and the mark
  have hend : ∀ c : Cursor α, c.next.2.inner.set.copy = c.inner.set.copy := by
    intro c
    refine Eq.trans ?_ (copy_set_next c.inner)
    cases h : c.inner.next.1 with
    | some x => rw [Cursor.next_of_some h]
    | none =>
        rw [Cursor.next_of_none h]
        split <;> rfl
  cases marked with
  | false => exact hend _
  | true =>
      rw [Bool.toNat_true, removeWhere, show CursorInterface.next _ = Cursor.next _ from rfl,
        Cursor.next_of_none hnext, if_pos rfl]
      dsimp only
      rw [← copy_set_next inner]
      cases selects SignedWord.minusOne with
      | panics => rfl
      | answers selected => cases selected <;> exact hend _

/-- Removing members one by one does to the table what it does to the set in the table. -/
theorem removeWhere_inner (selects : α → Reply Bool) (marked : Bool) {ahead behind : List α}
    {current : Option α} {writes : Empty → Except TableError (α → Option α)}
    {inner : MemberSet.Cursor α Spreading α}
    (h : MemberSet.Scanned {} within inner ⟨writes, ahead, current, behind⟩) :
    (removeWhere selects (ahead.length + marked.toNat)
      ({ inner, marked, pending := marked, atMarker := false } : Cursor α)).state.inner.set.copy =
        (removeWhere selects ahead.length inner).state.set.copy := by
  -- the marker is asked about last, so both scans agree up to there; the induction is on the members still
  -- ahead of the cursor
  induction ahead generalizing behind current inner with
  | nil =>
      have hpast := removeWhere_past selects h.next.1 marked
      rw [List.length_nil, Nat.zero_add]
      exact hpast.trans (copy_set_next inner).symm
  | cons x rest ih =>
      obtain ⟨hnext, hscanned⟩ := h.next
      have hinner : CursorInterface.next inner = (some x, inner.next.2) := Prod.ext hnext rfl
      rw [List.length_cons, Nat.succ_add, removeWhere, removeWhere, hinner,
        show CursorInterface.next _ = Cursor.next _ from rfl, Cursor.next_of_some hnext]
      dsimp only
      cases selects x with
      -- a panic ends both scans at the same member
      | panics => rfl
      | answers selected =>
          cases selected with
          | true => exact ih (hscanned.remove (wordMember_lawful {})).2
          | false => exact ih hscanned

theorem marked_eq_of_members_perm {s t : WordSet α} (h : s.members.Perm t.members) :
    s.marked = t.marked := by
  have hmem : ∀ u : WordSet α, SignedWord.minusOne ∈ u.members ↔ u.marked = true := by
    intro u
    rw [members, List.mem_append, or_iff_right minusOne_notMem_inner, mem_marker, and_iff_right rfl]
  rw [Bool.eq_iff_iff, ← hmem, ← hmem]
  exact h.mem_iff

theorem inner_retain (s : WordSet α) (keeps : α → Reply Bool) :
    (s.retain keeps).state.inner = (s.inner.retain keeps).state := by
  rw [retain]
  dsimp only
  split
  · rfl
  · split
    · split <;> rfl
    · rfl

theorem length_scanOrder (s : WordSet α) :
    s.scanOrder.length = s.inner.scanOrder.length + s.marked.toNat := by
  rw [scanOrder, List.length_append, marker]
  cases s.marked <;> rfl

theorem Represents.sweepsAlong (h : s.Represents within S) :
    (scannable α).SweepsAlong (fun p (s : WordSet α) => s.retain p) (·.map not) (fun _ => ()) s
      s.scanOrder := by
  have hretain : ∀ p : α → Reply Bool, (s.retain p).Agrees (fun u l => u.members.Perm l)
      ((sift (fun x => (p x).map not) s.scanOrder false).map fun _ => ()) := by
    intro p
    have hagrees := h.retain p
    exact ⟨⟨hagrees.result, hagrees.ends, hagrees.state.members⟩, hagrees.calls⟩
  refine .of_follows follows_walk h.openCursor (fun hc => hc.set.members) hretain fun p => ?_
  have hremove := Scannable.removeWhere_agrees (C := scannable α) follows_walk h.openCursor
    (fun hc => hc.set.members) fun x => (p x).map not
  -- the two agree on minus one, as they leave the same members
  have hmarked := marked_eq_of_members_perm (hremove.state.trans (hretain p).state.symm)
  have hcopy := (removeWhere_inner (fun x => (p x).map not) s.marked h.inner.openCursor).trans
    (h.inner.removeWhere_eq p)
  rw [← length_scanOrder, ← inner_retain] at hcopy
  have hforget := congrArg₂ WordSet.mk hcopy hmarked
  exact hforget

end WordSet

/-! ### Every reachable state -/

/-- **Scans are exact** in every reachable state of the five containers. Some insertions may have failed to
grow the table, as long as they have left a vacant slot (`Reaches`): a scan starts below one, and in a table
without any it would start at the last slot, where a removal may move an entry past the scan. -/
theorem exact_scan_of_run :
    (∀ {κ ν : Type} [SignedWord κ] [SignedWord ν] {config : TableConfig} {missing : ν}
        {m reached : WordMap κ ν}, WordMap.ofConfig config missing = .ok m →
      Reaches WordMap.table WordMap.Operation.perform m reached →
      ∃ order, (WordMap.scannable missing).ScansAlong (@WordMap.Spec.writes κ ν _ missing) reached order ∧
        (WordMap.scannable missing).SweepsAlong
          (fun p (m : WordMap κ ν) => m.eraseWhere fun k v => p (k, v)) id id reached order ∧
        (WordMap.scannable missing).SweepsAlong
          (fun p (m : WordMap κ ν) => m.retain fun k v => p (k, v)) (·.map not) (fun _ => ()) reached
            order) ∧
    (∀ {κ ν : Type} [SignedWord κ] [BEq ν] {config : TableConfig} {policy : NullPolicy}
        {m reached : WordKeyMap κ ν}, ValueMap.ofConfig config policy {} = .ok m →
      Reaches ValueMap.table ValueMap.Operation.perform m reached →
      ∃ order, (ValueMap.scannable (WordSlot κ ν) Spreading κ ν).ScansAlong
          (ValueMap.Spec.walk []).writes reached order ∧
        (ValueMap.scannable (WordSlot κ ν) Spreading κ ν).SweepsAlong
          (fun p m => m.eraseWhere fun k v => p (k, v)) id id reached order ∧
        (ValueMap.scannable (WordSlot κ ν) Spreading κ ν).SweepsAlong
          (fun p m => m.retain fun k v => p (k, v)) (·.map not) (fun _ => ()) reached order) ∧
    (∀ {η κ ν : Type} [Hasher η κ] [BEq κ] [EquivBEq κ] [BEq ν] {hasher : η},
      Hasher.Lawful hasher κ → ∀ {config : TableConfig} {policy : NullPolicy}
        {m reached : KeyMap η κ ν}, ValueMap.ofConfig config policy ⟨hasher⟩ = .ok m →
      Reaches ValueMap.table ValueMap.Operation.perform m reached →
      ∃ order, (ValueMap.scannable (Option (Bucket κ ν)) (Mixed η) κ ν).ScansAlong
          (ValueMap.Spec.walk []).writes reached order ∧
        (ValueMap.scannable (Option (Bucket κ ν)) (Mixed η) κ ν).SweepsAlong
          (fun p m => m.eraseWhere fun k v => p (k, v)) id id reached order ∧
        (ValueMap.scannable (Option (Bucket κ ν)) (Mixed η) κ ν).SweepsAlong
          (fun p m => m.retain fun k v => p (k, v)) (·.map not) (fun _ => ()) reached order) ∧
    (∀ {α : Type} [SignedWord α] {config : TableConfig} {s reached : WordSet α},
      WordSet.ofConfig config = .ok s →
      Reaches (fun s => s.inner.table) WordSet.Operation.perform s reached →
      ∃ order, (WordSet.scannable α).ScansAlong (FiniteSet.walk []).writes reached order ∧
        (WordSet.scannable α).SweepsAlong (fun p s => s.retain p) (·.map not) (fun _ => ()) reached
          order) ∧
    (∀ {η α : Type} [Hasher η α] [BEq α] [EquivBEq α] {hasher : η}, Hasher.Lawful hasher α →
      ∀ {config : TableConfig} {s reached : KeySet η α}, MemberSet.ofConfig config ⟨hasher⟩ = .ok s →
      Reaches MemberSet.table MemberSet.Operation.perform s reached →
      ∃ order, (MemberSet.scannable (Option (HashedMember α)) (Mixed η) α).ScansAlong
          (FiniteSet.walk []).writes reached order ∧
        (MemberSet.scannable (Option (HashedMember α)) (Mixed η) α).SweepsAlong
          (fun p s => s.retain p) (·.map not) (fun _ => ()) reached order) := by
  refine ⟨?_, ?_, ?_, ?_, ?_⟩
  · -- the order is that of the scan of the reached slots, whatever history filled them
    intro κ ν _ _ config missing m reached hm hreached
    obtain ⟨M, hM⟩ := WordMap.exists_of_reaches hm hreached
    exact ⟨_, hM.scansAlong, hM.sweepsAlong, hM.sweepsAlong.retain⟩
  · intro κ ν _ _ config policy m reached hm hreached
    have hE : ValueMap.LawfulSlots (WordSlot κ ν) ({} : Spreading) := wordSlot_lawful {}
    obtain ⟨M, hM⟩ := ValueMap.exists_of_reaches hE hm hreached
    exact ⟨_, hM.scansAlong hE, hM.sweepsAlong hE, (hM.sweepsAlong hE).retain⟩
  · intro η κ ν _ _ _ _ hasher hlawful config policy m reached hm hreached
    have hE : ValueMap.LawfulSlots (Option (Bucket κ ν)) (⟨hasher⟩ : Mixed η) := bucket_lawful hlawful
    obtain ⟨M, hM⟩ := ValueMap.exists_of_reaches hE hm hreached
    exact ⟨_, hM.scansAlong hE, hM.sweepsAlong hE, (hM.sweepsAlong hE).retain⟩
  · intro α _ config s reached hs hreached
    obtain ⟨S, hS⟩ := WordSet.exists_of_reaches hs hreached
    exact ⟨_, hS.scansAlong, hS.sweepsAlong⟩
  · intro η α _ _ _ hasher hlawful config s reached hs hreached
    have hE : MemberSet.LawfulSlots (Option (HashedMember α)) (⟨hasher⟩ : Mixed η) _ :=
      hashedMember_lawful hlawful
    obtain ⟨S, hS⟩ := MemberSet.exists_of_reaches hE hs hreached
    exact ⟨_, hS.scansAlong hE, hS.sweepsAlong hE⟩

/-- Containers whose entries collide. The hasher gives all keys the same hash. -/
theorem exact_scan_of_run_colliding :
    let wordOps : List (WordMap.Operation Int32 Int32) :=
      [.insert 1 10, .insert 9 90, .insert 17 170, .insert (-1) 5, .erase 1]
    let wordKeyOps : List (ValueMap.Operation (WordSlot Int64 Int32) Spreading Int64 Int32) :=
      [.insert 1 10, .insertNull 9, .cursor [.next, .write 4, .remove, .next]]
    let keyOps : List (ValueMap.Operation (Option (Bucket String Int32)) (Mixed HasherChoice)
        String Int32) := [.insert "a" 1, .insert "b" 2, .insert "c" 3, .erase "b"]
    let wordSetOps : List (WordSet.Operation Int32) := [.insert (-1), .extend [1, 2, 3], .erase 2]
    let keySetOps : List (MemberSet.Operation (Option (HashedMember String)) (Mixed HasherChoice)
        String) := [.extend ["a", "b", "c"], .take "a"]
    let hasher := HasherChoice.constant 7
    let words : WordMap Int32 Int32 := .empty (-1)
    let wordKeys : WordKeyMap Int64 Int32 := .empty .nullable {}
    let keys : KeyMap HasherChoice String Int32 := .empty .nonNull ⟨hasher⟩
    let wordSet : WordSet Int32 := .empty
    let keySet : KeySet HasherChoice String := .empty ⟨hasher⟩
    Hasher.Lawful hasher String ∧
      (WordMap.ofConfig {} (-1) = .ok words ∧
        NoOverflow (trace WordMap.Operation.perform wordOps words) ∧
        ∃ order, (WordMap.scannable (-1)).ScansAlong (@WordMap.Spec.writes Int32 Int32 _ (-1))
          (finalState WordMap.Operation.perform wordOps words) order) ∧
      (ValueMap.ofConfig {} .nullable {} = .ok wordKeys ∧
        NoOverflow (trace ValueMap.Operation.perform wordKeyOps wordKeys) ∧
        ∃ order, (ValueMap.scannable (WordSlot Int64 Int32) Spreading Int64 Int32).ScansAlong
          (ValueMap.Spec.walk []).writes (finalState ValueMap.Operation.perform wordKeyOps wordKeys)
            order) ∧
      (ValueMap.ofConfig {} .nonNull ⟨hasher⟩ = .ok keys ∧
        NoOverflow (trace ValueMap.Operation.perform keyOps keys) ∧
        ∃ order, (ValueMap.scannable (Option (Bucket String Int32)) (Mixed HasherChoice) String
          Int32).ScansAlong (ValueMap.Spec.walk []).writes
            (finalState ValueMap.Operation.perform keyOps keys) order) ∧
      (WordSet.ofConfig {} = .ok wordSet ∧
        NoOverflow (trace WordSet.Operation.perform wordSetOps wordSet) ∧
        ∃ order, (WordSet.scannable Int32).SweepsAlong (fun p s => s.retain p) (·.map not)
          (fun _ => ()) (finalState WordSet.Operation.perform wordSetOps wordSet) order) ∧
      (MemberSet.ofConfig {} ⟨hasher⟩ = .ok keySet ∧
        NoOverflow (trace MemberSet.Operation.perform keySetOps keySet) ∧
        ∃ order, (MemberSet.scannable (Option (HashedMember String)) (Mixed HasherChoice)
          String).SweepsAlong (fun p s => s.retain p) (·.map not) (fun _ => ())
            (finalState MemberSet.Operation.perform keySetOps keySet) order) := by
  intro wordOps wordKeyOps keyOps wordSetOps keySetOps hasher words wordKeys keys wordSet keySet
  have hlawful : Hasher.Lawful hasher String := fun a b h => by rw [eq_of_beq h]
  refine ⟨hlawful, ?_, ?_, ?_, ?_, ?_⟩
  · have hwords : WordMap.ofConfig {} (-1) = .ok words := WordMap.ofConfig_default _
    have hno : NoOverflow (trace WordMap.Operation.perform wordOps words) := by decide +kernel
    obtain ⟨order, hscans, -⟩ := exact_scan_of_run.1 hwords (.run hno)
    exact ⟨hwords, hno, order, hscans⟩
  · have hwordKeys : ValueMap.ofConfig {} .nullable {} = .ok wordKeys :=
      ValueMap.ofConfig_default _ _
    have hno : NoOverflow (trace ValueMap.Operation.perform wordKeyOps wordKeys) := by decide +kernel
    obtain ⟨order, hscans, -⟩ := exact_scan_of_run.2.1 hwordKeys (.run hno)
    exact ⟨hwordKeys, hno, order, hscans⟩
  · have hkeys : ValueMap.ofConfig {} .nonNull ⟨hasher⟩ = .ok keys :=
      ValueMap.ofConfig_default _ _
    have hno : NoOverflow (trace ValueMap.Operation.perform keyOps keys) := by decide +kernel
    obtain ⟨order, hscans, -⟩ := exact_scan_of_run.2.2.1 hlawful hkeys (.run hno)
    exact ⟨hkeys, hno, order, hscans⟩
  · have hwordSet : WordSet.ofConfig {} = .ok wordSet := WordSet.ofConfig_default
    have hno : NoOverflow (trace WordSet.Operation.perform wordSetOps wordSet) := by decide +kernel
    obtain ⟨order, -, hsweeps⟩ := exact_scan_of_run.2.2.2.1 hwordSet (.run hno)
    exact ⟨hwordSet, hno, order, hsweeps⟩
  · have hkeySet : MemberSet.ofConfig {} ⟨hasher⟩ = .ok keySet := MemberSet.ofConfig_default _
    have hno : NoOverflow (trace MemberSet.Operation.perform keySetOps keySet) := by decide +kernel
    obtain ⟨order, -, hsweeps⟩ := exact_scan_of_run.2.2.2.2 hlawful hkeySet (.run hno)
    exact ⟨hkeySet, hno, order, hsweeps⟩

end LinearProbing
