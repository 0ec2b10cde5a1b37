import LinearProbing.Proofs.Walk

/-!
# LinearProbing.Proofs.IterationMode.Table

**The iteration mode of a table does not show.** It decides where a cursor keeps the state of its scan. What a
cursor has left in a table stays there while the table changes, and may be copied with it; but it is never
read, as opening a cursor overwrites it.

`Table.bare` forgets the mode and what is left of a scan. Every function on tables commutes with it, except
for those of cursors, which keep the state of a scan in one place or the other. Two cursors over tables that
are the same but for this go on alike if their scans are the same (`Cursor.Twin`).

That calls commute with forgetting is passed on to whole runs (`forall₂_alike`).
-/

namespace LinearProbing

/-! ### Calls that commute with forgetting -/

section Calls

variable {τ γ ω α β : Type} {bare : τ → τ}

namespace Change

/-- A second call commutes if it does so with every value of the first. -/
theorem within_andThen (c : Change τ α) {next next' : τ → α → Change τ β}
    (hnext : ∀ s value, next (bare s) value = (next' s value).within bare) :
    (c.within bare).andThen next = (c.andThen next').within bare := by
  obtain ⟨result, state, events⟩ := c
  cases result with
  | error failure => rfl
  | ok value =>
      simp only [andThen, within, hnext]

theorem within_forEach {step : τ → β → Change τ α}
    (hstep : ∀ s x, step (bare s) x = (step s x).within bare) (l : List β) (s : τ) :
    forEach step l (bare s) = (forEach step l s).within bare := by
  induction l generalizing s with
  | nil => rfl
  | cons x rest ih =>
      rw [forEach, forEach, hstep]
      exact within_andThen _ fun s _ => ih s

end Change

/-- A call of a function of the caller commutes if what it leaves on a panic does, and what is done with every
value. -/
theorem Call.run_bare {arguments : γ} {reply : Reply β} {left left' : τ} {next next' : β → Change τ α}
    (hleft : left' = bare left) (hnext : ∀ value, next value = (next' value).within bare) :
    Call.run arguments reply left' next = (Call.run arguments reply left next').within bare := by
  rw [hleft, within_run, funext hnext]

/-- Showing the members of a list to a function commutes. -/
theorem Call.forEach_bare (f : β → Reply Unit) (s : τ) (l : List β) :
    Call.forEach f (bare s) l = (Call.forEach f s l).within bare := by
  induction l with
  | nil => rfl
  | cons x rest ih =>
      rw [Call.forEach, Call.forEach, ih]
      cases f x <;> rfl

/-- Two calls end alike, run the same functions of the caller, report the same, and what they leave is the
same but for what is forgotten. -/
structure Call.Alike (bare : τ → τ) (c d : Call τ γ α) : Prop where
  result : c.result = d.result
  calls : c.calls = d.calls
  events : c.events = d.events
  state : bare c.state = bare d.state

theorem Call.alike_of_within {c d : Call τ γ α} (h : c.within bare = d.within bare) : c.Alike bare d where
  result := congrArg (·.result) h
  calls := congrArg (·.calls) h
  events := congrArg (·.events) h
  state := congrArg (·.state) h

/-- **Runs are alike** if every operation commutes with forgetting, on what it is given and what it works
on. -/
theorem forall₂_alike {perform : ω → τ → Call τ γ α} {bareOperation : ω → ω}
    (hcommutes : ∀ op s, (perform (bareOperation op) (bare s)).within bare = (perform op s).within bare)
    {ops ops' : List ω} (hops : ops.map bareOperation = ops'.map bareOperation) {s s' : τ}
    (hs : bare s = bare s') :
    List.Forall₂ (Call.Alike bare) (trace perform ops s) (trace perform ops' s') := by
  induction ops generalizing ops' s s' with
  | nil =>
      obtain rfl := List.map_eq_nil_iff.mp hops.symm
      exact .nil
  | cons op rest ih =>
      obtain ⟨op', rest', rfl, hop, hrest⟩ := List.map_eq_cons_iff.mp hops.symm
      have hfirst : (perform op s).Alike bare (perform op' s') := by
        refine Call.alike_of_within ?_
        rw [← hcommutes op s, ← hcommutes op' s', hop, hs]
      exact .cons hfirst (ih hrest.symm hfirst.state)

end Calls

/-! ### Tables -/

namespace Table

variable {σ κ ν : Type} (E : EntryLayout σ κ ν)

/-- A table without its iteration mode, and without what a cursor has left in it. -/
def bare (t : Table σ) : Table σ := { t with mode := .fresh, scan := {} }

theorem bare_eq_iff {t u : Table σ} :
    t.bare = u.bare ↔ t.sizing = u.sizing ∧ t.slots = u.slots ∧ t.len = u.len := by
  simp [bare]

theorem insertAt_bare (t : Table σ) (index : Nat) (slot : σ) :
    t.bare.insertAt E index slot = (t.insertAt E index slot).within bare := by
  obtain ⟨sizing, slots, len, mode, scan⟩ := t
  unfold insertAt
  dsimp only [bare, setAt]
  split
  · split <;> rfl
  · rfl

theorem compact_bare (t : Table σ) : t.bare.compact E = (t.compact E).within bare := by
  have hsizing : t.bare.sizing = t.sizing := rfl
  have hlen : t.bare.len = t.len := rfl
  unfold compact capacity
  rw [hsizing, hlen]
  cases t.sizing.compactedFor? t.len with
  | none => rfl
  | some sizing => dsimp only; split <;> rfl

theorem clearWith_bare (blank : σ → σ) (t : Table σ) : t.bare.clearWith blank = (t.clearWith blank).bare := by
  have hempty : t.bare.isEmpty = t.isEmpty := rfl
  unfold clearWith
  rw [hempty]
  cases t.isEmpty <;> rfl

theorem sweep_bare (selects : κ → ν → Reply Bool) (steps : Nat) (scan : Scan) (t : Table σ) (removed : Bool) :
    t.bare.sweep E selects steps scan removed = (t.sweep E selects steps scan removed).within bare := by
  induction steps generalizing scan t removed with
  | zero => rfl
  | succ steps ih =>
      have hslots : t.bare.slots = t.slots := rfl
      have hentryAt : t.bare.entryAt? E = t.entryAt? E := rfl
      rw [sweep, sweep, hslots, hentryAt]
      -- the scan reads slots only, which the two tables share
      rcases scan.advance E.layout t.slots with ⟨_ | index, scan'⟩
      · rfl
      · cases hentry : t.entryAt? E index with
        | none => simp only [hentry]; rfl
        | some e =>
            obtain ⟨key, value⟩ := e
            simp only [hentry]
            cases selects key value with
            | panics => rfl
            | answers selected =>
                cases selected with
                | true => exact congrArg (Call.after (key, value)) (ih scan' (t.eraseAt E index) true)
                | false => exact congrArg (Call.after (key, value)) (ih scan' t removed)

theorem eraseWhere_bare (selects : κ → ν → Reply Bool) (t : Table σ) :
    t.bare.eraseWhere E selects = (t.eraseWhere E selects).within bare :=
  sweep_bare E selects _ _ t false

/-! ### Cursors -/

namespace Cursor

/-- Two cursors whose scans are the same, wherever they are kept, over tables that are the same but for
this. -/
structure Twin (c d : Cursor σ) : Prop where
  scan : c.scan = d.scan
  table : c.table.bare = d.table.bare

variable {c d : Cursor σ} {E}

theorem bare_setScan (c : Cursor σ) (scan : Scan) : (c.setScan scan).table.bare = c.table.bare := by
  unfold setScan
  split <;> rfl

theorem Twin.setScan (h : c.table.bare = d.table.bare) (scan : Scan) :
    (c.setScan scan).Twin (d.setScan scan) where
  scan := (scan_setScan scan).trans (scan_setScan scan).symm
  table := (bare_setScan c scan).trans (h.trans (bare_setScan d scan).symm)

/-- Opening a cursor begins the same scan in both modes. -/
theorem twin_openCursor {t u : Table σ} (h : t.bare = u.bare) : (t.openCursor E).Twin (u.openCursor E) := by
  have hopen : ∀ t : Table σ, (t.openCursor E).scan = .begin E.layout t.slots t.len ∧
      (t.openCursor E).table.bare = t.bare := by
    intro t
    unfold openCursor
    dsimp only
    split <;> exact ⟨rfl, rfl⟩
  obtain ⟨hscan, htable⟩ := hopen t
  obtain ⟨hscan', htable'⟩ := hopen u
  obtain ⟨-, hslots, hlen⟩ := bare_eq_iff.mp h
  rw [← hslots, ← hlen] at hscan'
  exact ⟨hscan.trans hscan'.symm, htable.trans (h.trans htable'.symm)⟩

theorem Twin.next (h : c.Twin d) : (c.next E).1 = (d.next E).1 ∧ (c.next E).2.Twin (d.next E).2 := by
  obtain ⟨-, hslots, -⟩ := bare_eq_iff.mp h.table
  unfold Cursor.next entryAt?
  rw [h.scan, hslots]
  exact ⟨rfl, .setScan h.table _⟩

theorem Twin.remove (h : c.Twin d) :
    (c.remove E).1 = (d.remove E).1 ∧ (c.remove E).2.Twin (d.remove E).2 := by
  unfold Cursor.remove
  rw [h.scan]
  rcases d.scan.takeCurrent with ⟨_ | index, scan⟩
  · exact ⟨rfl, .setScan h.table scan⟩
  · obtain ⟨hscan, htable⟩ := Twin.setScan h.table scan
    obtain ⟨-, hslots, -⟩ := bare_eq_iff.mp htable
    have hentry := congrArg (fun slots => E.entryIn? (E.layout.slotAt slots index)) hslots
    exact ⟨hentry, hscan, congrArg (Table.eraseAt E · index) htable⟩

theorem Twin.writeCurrent (h : c.Twin d) (write : σ → σ) :
    (c.writeCurrent E write).1 = (d.writeCurrent E write).1 ∧
      (c.writeCurrent E write).2.Twin (d.writeCurrent E write).2 := by
  unfold Cursor.writeCurrent
  rw [h.scan]
  cases d.scan.current with
  | none => exact ⟨rfl, h⟩
  | some index =>
      exact ⟨rfl, h.scan, congrArg
        (fun t : Table σ => t.setAt index (write (E.layout.slotAt t.slots index))) h.table⟩

end Cursor

end Table

end LinearProbing
