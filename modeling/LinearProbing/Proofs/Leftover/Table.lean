import LinearProbing.Proofs.Leftover.Slots
import LinearProbing.Proofs.Matching
import LinearProbing.Proofs.Table
import LinearProbing.Proofs.Walk

/-!
# LinearProbing.Proofs.Leftover.Table

**What is left in the vacant slots of a table does not show.** Two tables are alike if they have the same
sizing, count the same number of entries, and are the same in their slots but for what is left in vacant ones
(`Table.Like`). Every function does the same to both (`Change.Matches`, `Call.Matches`), and leaves tables
that are alike again. Neither the iteration mode nor what a cursor has left in a table counts.

Every table is alike to itself. So what is known of a table on either side can be carried along: that its
entries are counted (`Table.Counted`), if they are counted at the start. This holds of every run whatsoever,
also where insertions have failed and the table is full.
-/

namespace LinearProbing

namespace Table

variable {σ κ ν : Type} {E : EntryLayout σ κ ν} {counted : Prop} {t u : Table σ} {i : Nat} {slot : σ}

/-- The entries of a table are counted. -/
structure Counted (E : EntryLayout σ κ ν) (t : Table σ) : Prop where
  sizing : t.sizing.Valid
  size_eq : t.slots.size = t.sizing.capacity
  len_eq : t.len = (E.layout.occupants t.slots).length

/-- Two tables are the same but for what is left in vacant slots, for their iteration modes, and for what
cursors have left in them. Their entries may be known to be counted. -/
structure Like (E : EntryLayout σ κ ν) (counted : Prop) (t u : Table σ) : Prop where
  sizing_eq : t.sizing = u.sizing
  len_eq : t.len = u.len
  slots : E.layout.Like t.slots u.slots
  count : counted → t.Counted E

theorem Like.refl (h : counted → t.Counted E) : t.Like E counted t := ⟨rfl, rfl, .refl _, h⟩

/-! ### Reading -/

theorem Like.entries_eq (h : t.Like E counted u) : t.entries E = u.entries E := by
  rw [Table.entries_eq, Table.entries_eq, EntryLayout.entries_eq_occupants,
    EntryLayout.entries_eq_occupants, h.slots.occupants_eq]

theorem Like.entryAt?_eq (h : t.Like E counted u) (i : Nat) : t.entryAt? E i = u.entryAt? E i := by
  rcases h.slots.agree i with heq | ⟨hvac, hvac'⟩
  · rw [entryAt?, entryAt?, heq]
  · rw [entryAt?, entryAt?, Option.isNone_iff_eq_none.mp hvac, Option.isNone_iff_eq_none.mp hvac']

theorem Like.slotAt_eq (h : t.Like E counted u) (hocc : E.layout.vacantAt t.slots i = false) :
    E.layout.slotAt t.slots i = E.layout.slotAt u.slots i :=
  h.slots.slotAt_eq hocc

section Searching

variable [BEq κ] {hash : UInt64} {key : κ}

/-- A search compares only entries, so it takes the same course through either table. -/
theorem Like.locate_eq (h : t.Like E counted u) (hash : UInt64) (key : κ) :
    t.locate E hash key = u.locate E hash key := by
  rw [locate, locate, h.slots.probe_eq, h.slots.size_eq]

theorem Like.find?_eq (h : t.Like E counted u) (hash : UInt64) (key : κ) :
    t.find? E hash key = u.find? E hash key := by
  rw [find?, find?, h.locate_eq]

/-- A found slot is occupied, so nothing left over is ever read there. -/
theorem vacantAt_of_locate_found (h : t.locate E hash key = .found i) :
    E.layout.vacantAt t.slots i = false :=
  Layout.vacantAt_of_probeFrom_found h

/-- The vacant slot that a search ends at is one of the table. -/
theorem vacantAt_of_locate_vacant (h : t.locate E hash key = .vacant i) :
    i < t.slots.size ∧ E.layout.vacantAt t.slots i = true := by
  refine Layout.vacantAt_of_probeFrom_vacant (homeSlot_lt (Nat.pos_of_ne_zero fun hsize => ?_)) h
  -- in an array without slots, the search does not even begin
  rw [locate, Layout.probe, hsize] at h
  cases h

theorem vacantAt_of_find? (h : t.find? E hash key = some i) : E.layout.vacantAt t.slots i = false := by
  rw [find?] at h
  split at h
  · next hlocate =>
    cases h
    exact vacantAt_of_locate_found hlocate
  · cases h
  · cases h

end Searching

/-! ### Changing -/

/-- Overwriting an occupied slot alike keeps the tables alike. -/
theorem Like.setAt (hL : E.layout.Lawful) (h : t.Like E counted u)
    (hocc : E.layout.vacantAt t.slots i = false) (hslot : E.layout.vacant slot = false) :
    (t.setAt i slot).Like E counted (u.setAt i slot) where
  sizing_eq := h.sizing_eq
  len_eq := h.len_eq
  slots := h.slots.setIfInBounds i (.refl slot)
  count hcounted := by
    obtain ⟨hsizing, hsize, hlen⟩ := h.count hcounted
    refine ⟨hsizing, Array.size_setIfInBounds.trans hsize, hlen.trans ?_⟩
    rw [(hL.occupants_vacate hocc).length_eq]
    exact (hL.occupants_replace hocc hslot).length_eq.symm

/-- Removing from the same occupied slot keeps the tables alike, counts included. -/
theorem Like.eraseAt (hL : E.layout.Lawful) (h : t.Like E counted u)
    (hocc : E.layout.vacantAt t.slots i = false) : (t.eraseAt E i).Like E counted (u.eraseAt E i) where
  sizing_eq := h.sizing_eq
  len_eq := congrArg (· - 1) h.len_eq
  slots := (h.slots.vacate hL i).closeGap hL i
  count hcounted := by
    -- vacating takes one occupant and closing the gap none, so the length still counts them
    obtain ⟨hsizing, hsize, hlen⟩ := h.count hcounted
    have hlt : i < (E.layout.vacate t.slots i).size := by
      rw [Layout.size_vacate]
      exact hL.lt_size hocc
    obtain ⟨hclosed, hperm⟩ := Layout.closeGap_occupants hL hlt hL.vacantAt_vacate_self
    refine ⟨hsizing, (hclosed.trans Layout.size_vacate).trans hsize, ?_⟩
    have hless := (hL.occupants_vacate hocc).length_eq
    rw [List.length_cons, ← hlen] at hless
    show t.len - 1 = _
    rw [hless, Nat.add_sub_cancel]
    exact hperm.length_eq.symm

/-- A table is rebuilt from its entries alone, so what was left over is gone. -/
theorem Like.rehash (hL : E.layout.Lawful) (h : t.Like E counted u) {sizing : Sizing}
    (hsizing : counted → sizing.Valid ∧ t.len < sizing.capacity) (tracked : Nat) :
    (t.rehash E sizing tracked).1.Like E counted (u.rehash E sizing tracked).1 ∧
      (t.rehash E sizing tracked).2 = (u.rehash E sizing tracked).2 := by
  have hrehash := h.slots.rehash_eq sizing.capacity tracked
  refine ⟨⟨rfl, h.len_eq, ?_, fun hcounted => ?_⟩, ?_⟩
  · show E.layout.Like (E.layout.rehash t.slots _ _).1 (E.layout.rehash u.slots _ _).1
    rw [hrehash]
    exact .refl _
  · obtain ⟨hvalid, hroom⟩ := hsizing hcounted
    have hlen := (h.count hcounted).len_eq
    obtain ⟨hsize, -, hperm⟩ := Layout.rehash_rebuilt hL (hlen ▸ hroom)
    exact ⟨hvalid, hsize, hlen.trans hperm.length_eq.symm⟩
  · show (E.layout.rehash t.slots _ _).2 = (E.layout.rehash u.slots _ _).2
    rw [hrehash]

/-- Filling the same vacant slot ends alike, a growth that fails included. -/
theorem Like.insertAt (hL : E.layout.Lawful) (h : t.Like E counted u)
    (hvac : i < t.slots.size ∧ E.layout.vacantAt t.slots i = true) (hslot : E.layout.vacant slot = false) :
    (t.insertAt E i slot).Matches (Like E counted) (u.insertAt E i slot) := by
  have hfilled : (t.withEntry i slot).Like E counted (u.withEntry i slot) :=
    { sizing_eq := h.sizing_eq
      len_eq := congrArg (· + 1) h.len_eq
      slots := h.slots.setIfInBounds i (.refl slot)
      count := fun hcounted => by
        obtain ⟨hsizing, hsize, hlen⟩ := h.count hcounted
        refine ⟨hsizing, Array.size_setIfInBounds.trans hsize, ?_⟩
        show t.len + 1 = _
        rw [hlen]
        exact (Layout.occupants_fill hvac.1 hvac.2 hslot).length_eq.symm }
  -- whether to grow, and to what, is read off the sizing and the length, which agree
  obtain ⟨sizing, slots, len, mode, scan⟩ := t
  obtain ⟨sizing', slots', len', mode', scan'⟩ := u
  obtain rfl : sizing = sizing' := h.sizing_eq
  obtain rfl : len = len' := h.len_eq
  dsimp only [Table.insertAt, Table.setAt]
  refine .ite (fun _ => ?_) fun _ => .done hfilled i
  cases hgrown : sizing.grownFor? (len + 1) with
  | none => exact .fail hfilled .capacityOverflow
  | some grown =>
      obtain ⟨hstate, hslot⟩ := hfilled.rehash hL (fun hcounted => by
        obtain ⟨hvalid, -, -, hle⟩ := (h.count hcounted).sizing.of_grownFor? hgrown
        exact ⟨hvalid, Nat.lt_of_le_of_lt hle hvalid.threshold_lt_capacity⟩) i
      exact ⟨congrArg Except.ok hslot, rfl, hstate⟩

theorem Like.compact (hL : E.layout.Lawful) (h : t.Like E counted u) :
    (t.compact E).Matches (Like E counted) (u.compact E) := by
  unfold Table.compact capacity
  rw [← h.sizing_eq, ← h.len_eq]
  cases hfound : t.sizing.compactedFor? t.len with
  | none => exact .fail h .capacityOverflow
  | some sizing =>
      refine .ite (fun hlt => ?_) fun _ => .done h ()
      have hstate := h.rehash hL (fun hcounted => by
        obtain ⟨-, hle, hvalid⟩ := (h.count hcounted).sizing.of_compactedFor? hfound
        exact ⟨hvalid hlt, Nat.lt_of_le_of_lt hle (hvalid hlt).threshold_lt_capacity⟩) 0
      exact ⟨rfl, rfl, hstate.1⟩

/-- Clearing makes all slots vacant, whatever is left over in them. -/
theorem Like.clearWith {blank : σ → σ} (hL : E.layout.Lawful) (h : t.Like E counted u)
    (hblank : ∀ s, E.layout.vacant (blank s) = true) :
    (t.clearWith blank).Like E counted (u.clearWith blank) := by
  have hempty : u.isEmpty = t.isEmpty := by rw [isEmpty, isEmpty, h.len_eq]
  unfold Table.clearWith
  rw [hempty]
  split
  · exact h
  · refine ⟨h.sizing_eq, rfl, h.slots.blanked hL hblank, fun hcounted => ?_⟩
    obtain ⟨hsizing, hsize, -⟩ := h.count hcounted
    refine ⟨hsizing, (Array.size_map ..).trans hsize, ?_⟩
    rw [Layout.occupants_of_vacant (Layout.vacantAt_map hL hblank t.slots)]
    rfl

/-- A table that was cleared is like a new one. -/
theorem Counted.clearWith_like {blank : σ → σ} (hL : E.layout.Lawful) (h : t.Counted E)
    (hblank : ∀ s, E.layout.vacant (blank s) = true) (mode : IterationMode) :
    (t.clearWith blank).Like E True (ofSizing E t.sizing mode) := by
  have hself : t.Like E True t := .refl fun _ => h
  have hcounted := (hself.clearWith hL hblank).count trivial
  have hcleared : (t.clearWith blank).len = 0 ∧ (t.clearWith blank).sizing = t.sizing := by
    unfold Table.clearWith
    split
    · next hempty => exact ⟨by simpa [isEmpty] using hempty, rfl⟩
    · exact ⟨rfl, rfl⟩
  refine ⟨hcleared.2, hcleared.1, .of_vacant ?_ (fun i => ?_) fun i => ?_, fun _ => hcounted⟩
  · rw [hcounted.size_eq, hcleared.2]
    exact Array.size_replicate.symm
  · -- with no entries counted, no slot can be occupied
    refine Layout.vacantAt_of_occupants_eq_nil hL (List.eq_nil_of_length_eq_zero ?_) i
    rw [← hcounted.len_eq, hcleared.1]
  · exact hL.vacantAt_replicate _

theorem counted_ofSizing (hL : E.layout.Lawful) {sizing : Sizing} (hs : sizing.Valid)
    (mode : IterationMode) : (ofSizing E sizing mode).Counted E where
  sizing := hs
  size_eq := Array.size_replicate
  len_eq := by
    show 0 = _
    rw [show E.layout.occupants (ofSizing E sizing mode).slots = [] from hL.occupants_replicate _]
    rfl

/-! ### Iterating, sweeping and cursors -/

theorem firstEntry_eq {l l' : List σ} (h : List.Forall₂ E.layout.Agree l l') :
    (Iter.firstEntry E l).1 = (Iter.firstEntry E l').1 ∧
      List.Forall₂ E.layout.Agree (Iter.firstEntry E l).2 (Iter.firstEntry E l').2 := by
  induction h with
  | nil => exact ⟨rfl, .nil⟩
  | @cons s s' rest rest' hagree hrest ih =>
      rw [Iter.firstEntry, Iter.firstEntry]
      rcases hagree with rfl | ⟨hvac, hvac'⟩
      · cases E.entryIn? s with
        | some e => exact ⟨rfl, hrest⟩
        | none => exact ih
      · rw [Option.isNone_iff_eq_none.mp hvac, Option.isNone_iff_eq_none.mp hvac']
        exact ih

/-- Two iterators with slots ahead that are the same but for what is left in vacant ones. -/
structure Iter.Like (E : EntryLayout σ κ ν) (it it' : Iter σ) : Prop where
  ahead : List.Forall₂ E.layout.Agree it.ahead it'.ahead
  remaining_eq : it.remaining = it'.remaining

/-- An iterator skips the vacant slots, whatever is left over in them. -/
theorem Iter.Like.next {it it' : Iter σ} (h : Iter.Like E it it') :
    (it.next E).1 = (it'.next E).1 ∧ Iter.Like E (it.next E).2 (it'.next E).2 := by
  obtain ⟨hentry, hrest⟩ := firstEntry_eq h.ahead
  rw [Iter.next, Iter.next, ← h.remaining_eq]
  split
  · exact ⟨rfl, h.ahead, h.remaining_eq⟩
  · generalize Iter.firstEntry E it.ahead = first, Iter.firstEntry E it'.ahead = first' at hentry hrest
    obtain ⟨e?, rest⟩ := first
    obtain ⟨e?', rest'⟩ := first'
    obtain rfl : e? = e?' := hentry
    cases e? with
    | none => exact ⟨rfl, hrest, rfl⟩
    | some e => exact ⟨rfl, hrest, rfl⟩

theorem Iter.Like.take_eq {it it' : Iter σ} (h : Iter.Like E it it') (count : Nat) :
    (it.take E count).1 = (it'.take E count).1 := by
  induction count generalizing it it' with
  | zero => rfl
  | succ count ih =>
      obtain ⟨hentry, hnext⟩ := h.next
      rw [Iter.take, Iter.take]
      generalize it.next E = step, it'.next E = step' at hentry hnext
      obtain ⟨e?, rest⟩ := step
      obtain ⟨e?', rest'⟩ := step'
      obtain rfl : e? = e?' := hentry
      cases e? with
      | none => rfl
      | some e => exact congrArg (e :: ·) (ih hnext)

/-- Iterators produce the same entries. -/
theorem Like.take_iter_eq (h : t.Like E counted u) (count : Nat) :
    (t.iter.take E count).1 = (u.iter.take E count).1 :=
  Iter.Like.take_eq ⟨h.slots.forall₂, h.len_eq⟩ count

/-- A sweep asks about the same entries in the same order, and removes the same ones. -/
theorem Like.sweep (hL : E.layout.Lawful) (h : t.Like E counted u) (selects : κ → ν → Reply Bool)
    (steps : Nat) (scan : Scan) (removed : Bool) :
    (t.sweep E selects steps scan removed).Matches (Like E counted)
      (u.sweep E selects steps scan removed) := by
  -- the scans advance alike, so both predicates are asked about one entry; the tables change between the
  -- steps, and with them the induction
  induction steps generalizing scan t u removed with
  | zero => exact .done h rfl
  | succ steps ih =>
      rw [Table.sweep, Table.sweep, ← h.slots.advance_eq]
      cases hadvance : scan.advance E.layout t.slots with
      | mk index? scan' =>
          cases index? with
          | none => exact .done h rfl
          | some index =>
              dsimp only
              rw [← h.entryAt?_eq]
              cases hentry : t.entryAt? E index with
              | none => exact .done h rfl
              | some e =>
                  obtain ⟨key, value⟩ := e
                  dsimp only
                  cases selects key value with
                  -- a predicate that panics leaves both tables where the sweep stood
                  | panics => exact (Call.Matches.fail h .panicked).after _
                  | answers selected =>
                      cases selected with
                      | true =>
                          have hocc := (Layout.vacantAt_of_advance hadvance).1
                          exact (ih (h.eraseAt hL hocc) scan' true).after _
                      | false => exact (ih h scan' removed).after _

theorem Like.eraseWhere (hL : E.layout.Lawful) (h : t.Like E counted u) (selects : κ → ν → Reply Bool) :
    (t.eraseWhere E selects).Matches (Like E counted) (u.eraseWhere E selects) := by
  rw [Table.eraseWhere, Table.eraseWhere, ← h.len_eq, ← h.slots.begin_eq]
  exact h.sweep hL selects _ _ _

/-- Neither the mode nor the state of a scan counts. -/
theorem Like.congr {t' u' : Table σ} (h : t.Like E counted u) (ht : t'.sizing = t.sizing)
    (htslots : t'.slots = t.slots) (htlen : t'.len = t.len) (hu : u'.sizing = u.sizing)
    (huslots : u'.slots = u.slots) (hulen : u'.len = u.len) : t'.Like E counted u' where
  sizing_eq := ht.trans (h.sizing_eq.trans hu.symm)
  len_eq := htlen.trans (h.len_eq.trans hulen.symm)
  slots := by rw [htslots, huslots]; exact h.slots
  count hcounted := by
    obtain ⟨hsizing, hsize, hlen⟩ := h.count hcounted
    exact ⟨ht ▸ hsizing, by rw [htslots, ht, hsize], by rw [htlen, htslots, hlen]⟩

namespace Cursor

variable {c d : Cursor σ}

/-- Two cursors with the same scan over tables that are alike; the entry produced last is in its slot. -/
structure Like (E : EntryLayout σ κ ν) (counted : Prop) (c d : Cursor σ) : Prop where
  scan_eq : c.scan = d.scan
  table : c.table.Like E counted d.table
  current : ∀ i, c.scan.current = some i → E.layout.vacantAt c.table.slots i = false

/-- Moving the scan leaves the sizing, the slots and the length. -/
theorem setScan_fields (c : Cursor σ) (scan : Scan) : (c.setScan scan).table.sizing = c.table.sizing ∧
    (c.setScan scan).table.slots = c.table.slots ∧ (c.setScan scan).table.len = c.table.len := by
  unfold setScan
  split <;> exact ⟨rfl, rfl, rfl⟩

theorem Like.setScan (h : c.table.Like E counted d.table) {scan : Scan}
    (hcurrent : ∀ i, scan.current = some i → E.layout.vacantAt c.table.slots i = false) :
    Like E counted (c.setScan scan) (d.setScan scan) := by
  obtain ⟨hsizing, hslots, hlen⟩ := setScan_fields c scan
  obtain ⟨hsizing', hslots', hlen'⟩ := setScan_fields d scan
  refine ⟨(scan_setScan scan).trans (scan_setScan scan).symm,
    h.congr hsizing hslots hlen hsizing' hslots' hlen', fun i hi => ?_⟩
  rw [hslots]
  rw [scan_setScan] at hi
  exact hcurrent i hi

/-- Cursors over alike tables yield the same entries. -/
theorem Like.next (h : Like E counted c d) :
    (c.next E).1 = (d.next E).1 ∧ Like E counted (c.next E).2 (d.next E).2 := by
  unfold Cursor.next
  rw [← h.scan_eq, ← h.table.slots.advance_eq]
  cases hadvance : c.scan.advance E.layout c.table.slots with
  | mk index? scan =>
      refine ⟨?_, .setScan h.table fun i hi => ?_⟩
      · cases index? with
        | none => rfl
        | some index => exact h.table.entryAt?_eq index
      · cases index? with
        | some index =>
            obtain ⟨hocc, hcurrent⟩ := Layout.vacantAt_of_advance hadvance
            cases hcurrent.symm.trans hi
            exact hocc
        | none =>
            -- a scan that gives nothing has no current entry
            unfold Scan.advance at hadvance
            split at hadvance
            · cases hadvance; cases hi
            · split at hadvance
              · cases hadvance
              · cases hadvance; cases hi

/-- Cursors over alike tables remove the same entries. -/
theorem Like.remove (hL : E.layout.Lawful) (h : Like E counted c d) :
    (c.remove E).1 = (d.remove E).1 ∧ Like E counted (c.remove E).2 (d.remove E).2 := by
  unfold Cursor.remove Scan.takeCurrent
  dsimp only
  rw [← h.scan_eq]
  -- the current slot is forgotten before the entry goes, so no removed slot stays current
  have hset : Like E counted (c.setScan { c.scan with current := none })
      (d.setScan { c.scan with current := none }) := .setScan h.table nofun
  cases hcurrent : c.scan.current with
  | none => exact ⟨rfl, hset⟩
  | some index =>
      refine ⟨hset.table.entryAt?_eq index, hset.scan_eq, hset.table.eraseAt hL ?_, fun i hi => ?_⟩
      · rw [(setScan_fields c _).2.1]
        exact h.current index hcurrent
      · have hnone : (c.setScan { c.scan with current := none }).scan.current = some i := hi
        rw [scan_setScan] at hnone
        cases hnone

/-- Writing to the entry produced last, if what is written is an entry again. -/
theorem Like.writeCurrent (hL : E.layout.Lawful) (h : Like E counted c d) (write : σ → σ)
    (hwrite : ∀ s, E.layout.vacant s = false → E.layout.vacant (write s) = false) :
    (c.writeCurrent E write).1 = (d.writeCurrent E write).1 ∧
      Like E counted (c.writeCurrent E write).2 (d.writeCurrent E write).2 := by
  unfold Cursor.writeCurrent
  rw [← h.scan_eq]
  cases hcurrent : c.scan.current with
  | none => exact ⟨rfl, h⟩
  | some index =>
      -- the current slot is occupied: there the two tables hold one and the same slot to write to
      have hocc := h.current index hcurrent
      dsimp only
      rw [← h.table.slotAt_eq hocc]
      refine ⟨rfl, h.scan_eq, h.table.setAt hL hocc (hwrite _ hocc), fun i hi => ?_⟩
      cases hcurrent.symm.trans hi
      show E.layout.vacantAt (c.table.slots.setIfInBounds index _) index = false
      rw [Layout.vacantAt_setIfInBounds_self (hL.lt_size hocc)]
      exact hwrite _ hocc

end Cursor

theorem Like.openCursor (h : t.Like E counted u) :
    Cursor.Like E counted (t.openCursor E) (u.openCursor E) := by
  have hopen : ∀ t : Table σ, (t.openCursor E).scan = .begin E.layout t.slots t.len ∧
      (t.openCursor E).table.sizing = t.sizing ∧ (t.openCursor E).table.slots = t.slots ∧
        (t.openCursor E).table.len = t.len := by
    intro t
    unfold Table.openCursor
    dsimp only
    split <;> exact ⟨rfl, rfl, rfl, rfl⟩
  obtain ⟨hscan, hsizing, hslots, hlen⟩ := hopen t
  obtain ⟨hscan', hsizing', hslots', hlen'⟩ := hopen u
  refine ⟨?_, h.congr hsizing hslots hlen hsizing' hslots' hlen', fun i hi => ?_⟩
  · rw [hscan, hscan', h.len_eq, h.slots.begin_eq]
  · rw [hscan] at hi
    cases hi

end Table

end LinearProbing
