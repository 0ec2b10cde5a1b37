import LinearProbing.Proofs.Walk

/-!
# LinearProbing.Proofs.Sweep

**Removing by a predicate.** `sift` goes along a list and removes what a predicate selects. A table does
the same when it removes by a predicate (`Table.Represents.eraseWhere`), and so does a walk whose entries
are removed one by one (`Walk.removeWhere`). The two ways leave the same slots (`Over.eraseWhere_eq`).
-/

namespace LinearProbing

/-! ### Along a list -/

/-- Goes along a list and removes the members that a predicate selects; says whether any was removed. A
panic of the predicate ends it and leaves what was done before. -/
def sift {ε : Type} (selects : ε → Reply Bool) : List ε → (removed : Bool) → Call (List ε) ε Bool
  | [], removed => .done [] removed
  | e :: rest, removed =>
    match selects e with
    | .panics => Call.after e (.fail (e :: rest) .panicked)
    | .answers true => Call.after e (sift selects rest true)
    | .answers false => Call.after e ((sift selects rest removed).within (e :: ·))

/-- Removal along a list of images. -/
theorem sift_map {ε δ : Type} (f : ε → δ) (selects : δ → Reply Bool) (l : List ε) (removed : Bool) :
    sift selects (l.map f) removed =
      ((sift (fun e => selects (f e)) l removed).within (List.map f)).mapCalls f := by
  induction l generalizing removed with
  | nil => rfl
  | cons e rest ih =>
      rw [List.map_cons, sift, sift]
      cases selects (f e) with
      | panics => rfl
      | answers selected =>
          cases selected <;> dsimp only <;> rw [ih] <;> rfl

/-- Removal along two lists, one after the other. -/
theorem sift_append {ε : Type} (selects : ε → Reply Bool) (l' l : List ε) (removed : Bool) :
    sift selects (l ++ l') removed =
      match (sift selects l removed).result with
      | .error _ => (sift selects l removed).within (· ++ l')
      | .ok removed' =>
        { sift selects l' removed' with
          state := (sift selects l removed).state ++ (sift selects l' removed').state
          calls := (sift selects l removed).calls ++ (sift selects l' removed').calls } := by
  induction l generalizing removed with
  | nil => rfl
  | cons e rest ih =>
      rw [List.cons_append, sift, sift]
      cases selects e with
      -- a panic in the first part leaves the second part as it is
      | panics => rfl
      | answers selected =>
          cases selected with
          | true =>
              dsimp only
              rw [ih true]
              simp only [Call.after]
              cases (sift selects rest true).result <;> rfl
          | false =>
              dsimp only
              rw [ih removed]
              simp only [Call.after, Call.within, Change.within]
              cases (sift selects rest removed).result <;> rfl

/-- With a predicate that always answers, every member is asked about once, and the selected ones go. -/
theorem sift_of_answers {ε : Type} {selects : ε → Reply Bool} {p : ε → Bool} {l : List ε}
    (removed : Bool) (h : ∀ e ∈ l, selects e = .answers (p e)) :
    sift selects l removed =
      { result := .ok (removed || l.any p), state := l.filter (! p ·), calls := l } := by
  induction l generalizing removed with
  | nil => simp [sift, Call.done, Call.quiet, Change.done]
  | cons e rest ih =>
      rw [sift, h e List.mem_cons_self]
      have hrest := fun x hx => h x (List.mem_cons_of_mem e hx)
      cases hp : p e with
      | true =>
          dsimp only
          rw [ih true hrest]
          simp [Call.after, hp]
      | false =>
          dsimp only
          rw [ih removed hrest]
          simp [Call.after, Call.within, Change.within, hp]

/-- Whatever the predicate does, nothing is added and the order is kept. -/
theorem sift_sublist {ε : Type} (selects : ε → Reply Bool) (l : List ε) (removed : Bool) :
    (sift selects l removed).state.Sublist l := by
  induction l generalizing removed with
  | nil => exact List.Sublist.slnil
  | cons e rest ih =>
      rw [sift]
      cases selects e with
      | panics => exact List.Sublist.refl _
      | answers selected =>
          cases selected with
          | true => exact (ih true).cons e
          | false => exact (ih removed).cons_cons e

/-- A predicate that panics has been asked about the members before, of which the selected ones are gone, and
about one more. -/
theorem sift_of_panics {ε : Type} {selects : ε → Reply Bool} {p : ε → Bool} {before : List ε} {e : ε}
    (removed : Bool) (h : ∀ x ∈ before, selects x = .answers (p x)) (he : selects e = .panics)
    (after : List ε) : sift selects (before ++ e :: after) removed =
      { result := .error .panicked, state := before.filter (! p ·) ++ e :: after
        calls := before ++ [e] } := by
  rw [sift_append, sift_of_answers removed h]
  simp [sift, he, Call.after, Call.fail, Call.quiet, Change.fail]

theorem Scan.current_advance {σ : Type} (L : Layout σ) (slots : Array σ) (s : Scan) :
    (s.advance L slots).2.current = (s.advance L slots).1 := by
  unfold Scan.advance
  split
  · rfl
  · split <;> rfl

namespace Table

open EntryLayout (Lawful)

variable {σ κ ν : Type} [BEq κ] [EquivBEq κ]
variable {E : EntryLayout σ κ ν} {hash : κ → UInt64} {storable : κ → ν → Prop} {within : Prop}

omit [BEq κ] [EquivBEq κ] in
/-- One step of a scan that removes by a predicate: the entry that it comes to, and what it does then. -/
inductive SweepStep (E : EntryLayout σ κ ν) (selects : κ → ν → Reply Bool) (steps : Nat) (scan : Scan)
    (t : Table σ) (removed : Bool) : Option (κ × ν) → Call (Table σ) (κ × ν) Bool → Prop
  | nothing : SweepStep E selects steps scan t removed none (.done t removed)
  | panicked {e : κ × ν} (reply : selects e.1 e.2 = .panics) :
      SweepStep E selects steps scan t removed (some e) (.after e (.fail t .panicked))
  | erased {e : κ × ν} {index : Nat} (reply : selects e.1 e.2 = .answers true)
      (current : scan.current = some index) (entry : t.entryAt? E index = some e) :
      SweepStep E selects steps scan t removed (some e)
        (.after e (Table.sweep E selects steps scan (t.eraseAt E index) true))
  | kept {e : κ × ν} (reply : selects e.1 e.2 = .answers false) :
      SweepStep E selects steps scan t removed (some e)
        (.after e (Table.sweep E selects steps scan t removed))

omit [BEq κ] [EquivBEq κ] in
theorem sweepStep (selects : κ → ν → Reply Bool) (steps : Nat) (scan : Scan) (t : Table σ)
    (removed : Bool) :
    SweepStep E selects steps (scan.advance E.layout t.slots).2 t removed
      ((scan.advance E.layout t.slots).1.bind (t.entryAt? E))
      (Table.sweep E selects (steps + 1) scan t removed) := by
  have hcurrent := scan.current_advance E.layout t.slots
  rw [Table.sweep]
  generalize scan.advance E.layout t.slots = x at hcurrent
  obtain ⟨index?, scan'⟩ := x
  cases index? with
  | none => exact .nothing
  | some index =>
      rw [Option.bind_some]
      -- the scan stops at an occupied slot; the entry is read from the table as it is by now
      cases hentry : t.entryAt? E index with
      | none =>
          simp only [hentry]
          exact .nothing
      | some e =>
          simp only [hentry]
          cases hreply : selects e.1 e.2 with
          | panics => exact .panicked hreply
          | answers selected =>
              cases selected with
              | true => exact .erased hreply hcurrent hentry
              | false => exact .kept hreply

/-- A scan that removes by a predicate does on the entries ahead of it what `sift` does on a list. The
scan is that of a cursor which has forgotten its current entry. -/
theorem Scanning.sweep (hE : E.Lawful hash storable) (selects : κ → ν → Reply Bool) {steps : Nat}
    {scan : Scan} {t : Table σ} (removed : Bool) {ahead behind : List (κ × ν)}
    (h : Scanning E hash within { table := t, own := some { scan with current := none } } ahead none
      behind) (hlen : ahead.length ≤ steps) :
    (Table.sweep E selects steps scan t removed).Agrees
      (fun u l => u.Represents E hash within (behind ++ l))
      (sift (fun e => selects e.1 e.2) ahead removed) := by
  induction steps generalizing scan t removed ahead behind with
  | zero =>
      obtain rfl := List.eq_nil_of_length_eq_zero (Nat.le_zero.mp hlen)
      refine .done ?_ removed
      exact h.contents
  | succ steps ih =>
      obtain ⟨hhead, hnext⟩ := h.next
      have hstep := sweepStep (E := E) selects steps scan t removed
      rw [show (scan.advance E.layout t.slots).1.bind (t.entryAt? E) = ahead.head? from hhead] at hstep
      change Scanning E hash within
        { table := t, own := some (scan.advance E.layout t.slots).2 } _ _ _ at hnext
      generalize (scan.advance E.layout t.slots).2 = scan' at hstep hnext
      generalize Table.sweep E selects (steps + 1) scan t removed = c at hstep
      cases ahead with
      | nil =>
          cases hstep with
          | nothing => exact .done (by exact h.contents) removed
      | cons e rest =>
          rw [List.length_cons, Nat.succ_le_succ_iff] at hlen
          -- the scan has forgotten the entry before it goes on
          have hforget : Scanning E hash within
              { table := t, own := some { scan' with current := none } } rest none (e :: behind) :=
            hnext.setScan rfl (Nat.le_refl _) (List.Perm.refl _) hnext.below_eq hnext.remaining_eq
              (.nothing rfl)
          rw [sift]
          cases hstep with
          | panicked hreply =>
              rw [hreply]
              exact .after (.panicked (by exact h.contents)) e
          | kept hreply =>
              rw [hreply]
              refine Call.Agrees.after ?_ e
              exact (ih removed hforget hlen).within (f := id) fun u l hu =>
                hu.perm List.perm_middle.symm
          | @erased _ index hreply hcurrent hentry =>
              rw [hreply]
              refine Call.Agrees.after (ih true ?_ hlen) e
              cases hnext.atEntry with
              | entry passed hg hindex _ =>
                  obtain rfl : index = offsetSlot t.slots.size scan'.start _ :=
                    Option.some.inj (hcurrent.symm.trans hindex)
                  exact hforget.eraseBehind hE (List.Perm.refl _) passed hg hentry rfl

/-- **Removing by a predicate** goes downwards through the entries. -/
theorem Represents.eraseWhere {t : Table σ} {l : List (κ × ν)} (h : t.Represents E hash within l)
    (hE : E.Lawful hash storable) (selects : κ → ν → Reply Bool) :
    (t.eraseWhere E selects).Agrees (fun u l => u.Represents E hash within l)
      (sift (fun e => selects e.1 e.2) (E.scanOrder t.slots) false) := by
  refine Scanning.sweep hE selects false (h.scanning rfl rfl rfl rfl) (Nat.le_of_eq ?_)
  rw [(EntryLayout.scanOrder_perm h.exists_vacantAt).length_eq, ← entries_eq, ← h.len_eq]

namespace Cursor

omit [BEq κ] [EquivBEq κ] in
theorem forgetScan_setScan (c : Cursor σ) (scan : Scan) :
    (c.setScan scan).table.forgetScan = c.table.forgetScan := by
  unfold setScan
  split <;> rfl

omit [BEq κ] [EquivBEq κ] in
/-- Going on with a cursor whose table and scan are the given ones, but for what the table keeps of a scan
and for the current entry. -/
theorem next_eq {c : Cursor σ} {t : Table σ} {scan : Scan} (E : EntryLayout σ κ ν)
    (ht : c.table.forgetScan = t.forgetScan)
    (hscan : { c.scan with current := none } = { scan with current := none }) :
    c.next E = ((scan.advance E.layout t.slots).1.bind (t.entryAt? E),
      c.setScan (scan.advance E.layout t.slots).2) := by
  have hslots := congrArg Table.slots ht
  have hadvance := congrArg (Scan.advance E.layout t.slots) hscan
  have hentryAt : c.table.entryAt? E = t.entryAt? E :=
    funext fun i => congrArg (E.entryAt? · i) hslots
  rw [next, show c.table.slots = t.slots from hslots,
    show c.scan.advance E.layout t.slots = scan.advance E.layout t.slots from hadvance, hentryAt]

omit [BEq κ] [EquivBEq κ] in
theorem remove_eq {c : Cursor σ} {index : Nat} (E : EntryLayout σ κ ν)
    (hcurrent : c.scan.current = some index) :
    (c.remove E).2 = { c.setScan { c.scan with current := none } with
      table := (c.setScan { c.scan with current := none }).table.eraseAt E index } := by
  rw [remove, Scan.takeCurrent, hcurrent]

end Cursor

end Table

/-! ### By a cursor -/

theorem Call.map_id {τ γ α : Type} (c : Call τ γ α) : c.map id = c := by
  obtain ⟨⟨result, _, _⟩, _⟩ := c
  cases result <;> rfl

theorem Call.map_unit_map {τ γ α β : Type} (c : Call τ γ α) (f : α → β) :
    (c.map f).map (fun _ => ()) = c.map fun _ => () := by
  obtain ⟨⟨result, _, _⟩, _⟩ := c
  cases result <;> rfl

/-- A walk whose entries are removed one by one ends like the removal along the list of the entries ahead
of it. -/
theorem Walk.removeWhere {ε ω : Type} (selects : ε → Reply Bool) (w : Walk ε ω) (removed : Bool) :
    ((CursorInterface.removeWhere selects w.ahead.length w).map fun _ => ()).Agrees
      (fun v l => v.contents.Perm (w.current.toList ++ w.behind ++ l))
      ((sift selects w.ahead removed).map fun _ => ()) := by
  obtain ⟨writes, ahead, current, behind⟩ := w
  -- what is kept moves from ahead to behind, so both ends of the walk change from step to step
  induction ahead generalizing current behind removed with
  | nil =>
      refine Call.Agrees.done ?_ ()
      exact List.Perm.refl _
  | cons e rest ih =>
      have hnext : CursorInterface.next (⟨writes, e :: rest, current, behind⟩ : Walk ε ω) =
          (some e, ⟨writes, rest, some e, current.toList ++ behind⟩) := rfl
      rw [List.length_cons, CursorInterface.removeWhere, hnext, sift]
      dsimp only
      cases selects e with
      | panics =>
          refine Call.Agrees.after (.panicked ?_) e
          exact List.perm_middle.symm
      | answers selected =>
          cases selected with
          | true =>
              have hrest := ih true none (current.toList ++ behind)
              rw [← Call.map_unit_map _ ([e] ++ ·)] at hrest
              exact hrest.after e
          | false =>
              have hrest := ih removed (some e) (current.toList ++ behind)
              refine Call.Agrees.after (hrest.within (f := id) (g := (e :: ·)) fun v l hv => ?_) e
              exact hv.trans List.perm_middle.symm

namespace CursorInterface

variable {σ κ ν χ ψ ε ω : Type} [CursorInterface χ ε ω] [CursorInterface ψ ε ω]

/-- Related cursors whose entries are removed one by one end alike and stay related. -/
theorem Follows.removeWhere {R : χ → ψ → Prop} (h : Follows R) (selects : ε → Reply Bool) (steps : Nat)
    {c : χ} {d : ψ} (hR : R c d) :
    (removeWhere selects steps c).Agrees R (removeWhere selects steps d) := by
  induction steps generalizing c d with
  | zero => exact .done (h.next hR).2 []
  | succ steps ih =>
      obtain ⟨hanswer, hnext⟩ := h.next hR
      rw [CursorInterface.removeWhere, CursorInterface.removeWhere]
      generalize CursorInterface.next c = x at hanswer hnext
      generalize CursorInterface.next d = y at hanswer hnext
      obtain ⟨answer, c'⟩ := x
      obtain ⟨answer', d'⟩ := y
      obtain rfl : answer = answer' := hanswer
      -- both cursors yield the same element, so the predicate is asked the same
      cases answer with
      | none => exact .done hnext []
      | some e =>
          dsimp only
          cases selects e with
          | panics => exact .after (.panicked hnext) e
          | answers selected =>
              cases selected with
              | true =>
                  obtain ⟨hremoved, hrest⟩ := h.remove hnext
                  rw [hremoved]
                  exact ((ih hrest).map _).after e
              | false => exact (ih hnext).after e

/-- A cursor of a container that only passes on what the cursor over its table does. -/
structure Over (E : EntryLayout σ κ ν) (P : χ → Prop) (inner : χ → Table.Cursor σ)
    (view : κ × ν → ε) : Prop where
  next : ∀ {c}, P c → (next c).1 = ((inner c).next E).1.map view ∧
    inner (next c).2 = ((inner c).next E).2 ∧ P (next c).2
  remove : ∀ {c}, P c → inner (remove c).2 = ((inner c).remove E).2 ∧ P (remove c).2

open Table.Cursor (forgetScan_setScan)

variable {E : EntryLayout σ κ ν} {P : χ → Prop} {inner : χ → Table.Cursor σ} {view : κ × ν → ε}

/-- Removing entries one by one keeps what single steps keep. -/
theorem Over.removeWhere (h : Over E P inner view) (selects : ε → Reply Bool) (steps : Nat) {c : χ}
    (hc : P c) : P (removeWhere selects steps c).state := by
  -- every cursor action keeps the invariant, and the loop is made of them
  induction steps generalizing c with
  | zero => exact (h.next hc).2.2
  | succ steps ih =>
      have hnext := (h.next hc).2.2
      rw [CursorInterface.removeWhere]
      generalize CursorInterface.next c = x at hnext
      obtain ⟨answer, c'⟩ := x
      cases answer with
      | none => exact hnext
      | some e =>
          dsimp only
          cases selects e with
          | panics => exact hnext
          | answers selected =>
              cases selected with
              | true => exact ih (h.remove hnext).2
              | false => exact ih hnext

/-- **Removing by a predicate and by a cursor** leaves the same table. -/
theorem Over.sweep_eq (h : Over E P inner view) (selects : ε → Reply Bool) (steps : Nat) {c : χ}
    {t : Table σ} {scan : Scan} (removed : Bool) (hc : P c)
    (ht : (inner c).table.forgetScan = t.forgetScan)
    (hscan : { (inner c).scan with current := none } = { scan with current := none }) :
    (inner (CursorInterface.removeWhere selects steps c).state).table.forgetScan =
      (Table.sweep E (fun k v => selects (view (k, v))) steps scan t removed).state.forgetScan := by
  induction steps generalizing c t scan removed with
  | zero =>
      obtain ⟨-, hinner, -⟩ := h.next hc
      show (inner (CursorInterface.next c).2).table.forgetScan = t.forgetScan
      rw [hinner, ← ht]
      exact forgetScan_setScan _ _
  | succ steps ih =>
      obtain ⟨hhead, hinner, hP⟩ := h.next hc
      have hnext := Table.Cursor.next_eq E ht hscan
      -- the table is swept by a scan of its own, the container through its cursor: one step of either looks
      -- at the same slot
      have hstep := Table.sweepStep (E := E) (fun k v => selects (view (k, v))) steps scan t removed
      rw [hnext] at hhead hinner
      dsimp only at hhead hinner
      have ht' := (forgetScan_setScan (inner c) (scan.advance E.layout t.slots).2).trans ht
      rw [← hinner] at ht'
      have hscan' : (inner (CursorInterface.next c).2).scan = (scan.advance E.layout t.slots).2 := by
        rw [hinner, Table.Cursor.scan_setScan]
      rw [CursorInterface.removeWhere]
      generalize CursorInterface.next c = y at hhead hP ht' hscan'
      obtain ⟨answer, c'⟩ := y
      dsimp only at hhead hP ht' hscan'
      generalize (scan.advance E.layout t.slots).2 = scan' at hstep hscan'
      generalize (scan.advance E.layout t.slots).1.bind (t.entryAt? E) = e? at hstep hhead
      generalize Table.sweep E _ (steps + 1) scan t removed = swept at hstep
      subst hhead
      cases hstep with
      | nothing => exact ht'
      | panicked hreply =>
          simp only [Option.map_some, hreply]
          exact ht'
      | kept hreply =>
          simp only [Option.map_some, hreply]
          exact ih removed hP ht' (by rw [hscan'])
      | @erased e index hreply hcurrent _ =>
          simp only [Option.map_some, hreply]
          obtain ⟨hremoved, hP'⟩ := h.remove hP
          rw [Table.Cursor.remove_eq E (hscan'.symm ▸ hcurrent)] at hremoved
          refine ih true hP' ?_ ?_
          · rw [hremoved]
            exact congrArg (Table.eraseAt E · index) ((forgetScan_setScan (inner c') _).trans ht')
          · rw [hremoved, ← hscan']
            exact congrArg (fun s : Scan => { s with current := none }) (Table.Cursor.scan_setScan _)

theorem Over.eraseWhere_eq (h : Over E P inner view) (selects : ε → Reply Bool) {c : χ} {t : Table σ}
    (hc : P c) (hopen : inner c = t.openCursor E) :
    P (CursorInterface.removeWhere selects t.len c).state ∧
      (inner (CursorInterface.removeWhere selects t.len c).state).table.forgetScan =
        (t.eraseWhere E fun k v => selects (view (k, v))).state.forgetScan := by
  refine ⟨h.removeWhere selects t.len hc, h.sweep_eq selects t.len false hc ?_ ?_⟩
  all_goals
    rw [hopen]
    unfold Table.openCursor
    dsimp only
    split <;> rfl

end CursorInterface

end LinearProbing
