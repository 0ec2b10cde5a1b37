import LinearProbing.Proofs.Capacity.Needed
import LinearProbing.Proofs.Table
import LinearProbing.Proofs.Walk

/-!
# LinearProbing.Proofs.Capacity.Resizing

**What operations do to the size of a table.** Whatever an operation does, its table either gains entries,
and then has at least the capacity that they need (`Table.Gains`), or loses some and keeps its size
(`Table.Keeps`); only a compaction makes it smaller (`Table.Compacts`). This is proved without regard to
what the entries are, and for calls as long as no insertion fails to grow the table (`Change.Sized`).
-/

namespace LinearProbing

/-! ### Tables -/

namespace Table

variable {σ κ ν : Type} {E : EntryLayout σ κ ν} {t u v : Table σ}

/-- The entries are within the threshold of a valid sizing. -/
structure Fits (t : Table σ) : Prop where
  sizing : t.sizing.Valid
  len_le : t.len ≤ t.sizing.threshold

/-- A table that gained entries, or as many as it lost none, and grew as far as they need. -/
structure Gains (t u : Table σ) : Prop where
  fits : u.Fits
  loadFactor : u.sizing.loadFactor = t.sizing.loadFactor
  len_le : t.len ≤ u.len
  capacity : u.capacity = max t.capacity (neededCapacity t.sizing.loadFactor u.len)

/-- A table of the same size that gained no entries. -/
structure Keeps (t u : Table σ) : Prop where
  sizing : u.sizing = t.sizing
  len_le : u.len ≤ t.len

/-- A table with the capacity that its entries need. -/
structure Compacts (t u : Table σ) : Prop where
  fits : u.Fits
  loadFactor : u.sizing.loadFactor = t.sizing.loadFactor
  len : u.len = t.len
  capacity : u.capacity = neededCapacity t.sizing.loadFactor t.len

/-- A table that fits has at least the capacity its entries need. -/
theorem Fits.neededCapacity_le (h : t.Fits) :
    neededCapacity t.sizing.loadFactor t.len ≤ t.capacity :=
  h.sizing.neededCapacity_le_iff.mpr h.len_le

/-- An empty table fits. -/
theorem fits_ofSizing {sizing : Sizing} (h : sizing.Valid) (mode : IterationMode) :
    (ofSizing E sizing mode).Fits := ⟨h, Nat.zero_le _⟩

theorem Keeps.refl (t : Table σ) : t.Keeps t := ⟨rfl, Nat.le_refl _⟩

theorem Keeps.trans (h : t.Keeps u) (h' : u.Keeps v) : t.Keeps v :=
  ⟨h'.sizing.trans h.sizing, h'.len_le.trans h.len_le⟩

theorem Keeps.fits (h : t.Keeps u) (ht : t.Fits) : u.Fits :=
  ⟨h.sizing ▸ ht.sizing, h.sizing ▸ h.len_le.trans ht.len_le⟩

theorem Keeps.capacity (h : t.Keeps u) : u.capacity = t.capacity := by
  rw [Table.capacity, h.sizing, Table.capacity]

/-- A change that neither adds entries nor removes any gains none. -/
theorem Fits.gains (h : t.Fits) (hsizing : u.sizing = t.sizing) (hlen : u.len = t.len) :
    t.Gains u where
  fits := ⟨hsizing ▸ h.sizing, by rw [hsizing, hlen]; exact h.len_le⟩
  loadFactor := by rw [hsizing]
  len_le := hlen.ge
  capacity := by
    rw [hlen, max_eq_left h.neededCapacity_le, Table.capacity, hsizing, Table.capacity]

theorem Gains.trans (h : t.Gains u) (h' : u.Gains v) : t.Gains v where
  fits := h'.fits
  loadFactor := h'.loadFactor.trans h.loadFactor
  len_le := h.len_le.trans h'.len_le
  capacity := by
    have hmono : neededCapacity t.sizing.loadFactor u.len ≤ neededCapacity t.sizing.loadFactor v.len :=
      neededCapacity_mono (h.loadFactor ▸ h.fits.sizing.loadFactor) h'.len_le
    rw [h'.capacity, h.capacity, h.loadFactor, max_assoc, max_eq_right hmono]

/-- **An insertion grows the table as far as its entries need**, or not at all. -/
theorem Fits.insertAt (h : t.Fits) (index : Nat) (slot : σ) :
    (t.insertAt E index slot).result = .error .capacityOverflow ∨
      (∃ j, (t.insertAt E index slot).result = .ok j) ∧ t.Gains (t.insertAt E index slot).state := by
  have hcapacity := h.neededCapacity_le
  unfold Table.insertAt
  dsimp only
  -- past the threshold the table grows, and then the needed capacity is the larger one
  split
  · next hexceeded =>
    have hfull : t.sizing.threshold < t.len + 1 := of_decide_eq_true hexceeded
    split
    · exact Or.inl rfl
    · next sizing hgrown =>
      obtain ⟨hvalid, hlt, hload, hlen⟩ := h.sizing.of_grownFor? hgrown
      have hneeded : sizing.capacity = neededCapacity t.sizing.loadFactor (t.len + 1) :=
        h.sizing.capacity_grownFor? hfull hgrown
      refine Or.inr ⟨⟨_, rfl⟩, ⟨hvalid, hlen⟩, hload, Nat.le_succ _, ?_⟩
      rw [max_eq_right (hneeded ▸ hlt.le)]
      exact hneeded
  · -- within it, the new entry still fits the capacity at hand
    next hroom =>
    have hlen : t.len + 1 ≤ t.sizing.threshold :=
      Nat.le_of_not_lt fun hlt => hroom (decide_eq_true hlt)
    refine Or.inr ⟨⟨_, rfl⟩, ⟨h.sizing, hlen⟩, rfl, Nat.le_succ _, ?_⟩
    exact (max_eq_left (h.sizing.neededCapacity_le_iff.mpr hlen)).symm

/-- If an insertion fails to grow a table, its entries fill the greatest table. -/
theorem Fits.len_eq_of_insertAt (h : t.Fits) {index : Nat} {slot : σ}
    (hoverflow : (t.insertAt E index slot).result = .error .capacityOverflow) :
    t.len = threshold maxCapacity t.sizing.loadFactor := by
  unfold Table.insertAt at hoverflow
  dsimp only at hoverflow
  split at hoverflow
  · next hexceeded =>
    split at hoverflow
    · next hgrown =>
      have hfull : t.sizing.threshold < t.len + 1 := of_decide_eq_true hexceeded
      -- no capacity holds one entry more, the greatest one included; a table that fits has no more entries
      -- than the greatest threshold either
      have hgreatest : IsCapacity maxCapacity := ⟨62, by decide, by decide, rfl⟩
      have hlt := h.sizing.threshold_lt_of_grownFor?_eq_none hfull hgrown hgreatest
      obtain ⟨k, -, hk, hcapacity⟩ := h.sizing.capacity
      have hle : t.sizing.threshold ≤ threshold maxCapacity t.sizing.loadFactor := by
        rw [h.sizing.threshold, hcapacity]
        exact threshold_mono h.sizing.loadFactor hk
      have hlen := h.len_le
      omega
    · cases hoverflow
  · cases hoverflow

/-- **A compaction leaves the capacity that the entries need.** -/
theorem Fits.compact (h : t.Fits) : t.Compacts (t.compact E).state := by
  have hneeded := h.sizing.compactedFor?_eq_some h.len_le
  have hcompaction := t.compaction E
  generalize t.compact E = c at hcompaction ⊢
  cases hcompaction with
  | moves found smaller =>
      obtain ⟨-, hlen, hvalid⟩ := h.sizing.of_compactedFor? found
      obtain rfl := Option.some.inj (hneeded.symm.trans found)
      exact ⟨⟨hvalid smaller, hlen⟩, rfl, rfl, rfl⟩
  | stays found least =>
      obtain rfl := Option.some.inj (hneeded.symm.trans found)
      exact ⟨h, rfl, rfl, le_antisymm least h.neededCapacity_le⟩
  | fails found => exact absurd (hneeded.symm.trans found) (by simp)

/-- If the entries fit, a compaction does not fail. -/
theorem Fits.compact_result (h : t.Fits) : (t.compact E).result = .ok () := by
  have hneeded := h.sizing.compactedFor?_eq_some h.len_le
  have hcompaction := t.compaction E
  generalize t.compact E = c at hcompaction ⊢
  cases hcompaction with
  | moves | stays => rfl
  | fails found => exact absurd (hneeded.symm.trans found) (by simp)

/-- Compacting never makes a table larger. -/
theorem Fits.capacity_le_of_compacts (h : t.Fits) (hu : t.Compacts u) : u.capacity ≤ t.capacity :=
  hu.capacity.trans_le h.neededCapacity_le

/-! ### Keeping the size -/

theorem keeps_setAt (t : Table σ) (index : Nat) (slot : σ) : t.Keeps (t.setAt index slot) :=
  ⟨rfl, Nat.le_refl _⟩

theorem keeps_closeTaken (t : Table σ) (index : Nat) : t.Keeps (t.closeTaken E index) :=
  ⟨rfl, Nat.sub_le ..⟩

theorem keeps_takeAt (t : Table σ) (index : Nat) : t.Keeps (t.takeAt E index) :=
  ⟨rfl, Nat.le_refl _⟩

theorem keeps_eraseAt (t : Table σ) (index : Nat) : t.Keeps (t.eraseAt E index) :=
  (keeps_takeAt t index).trans (keeps_closeTaken ..)

theorem keeps_clearWith (blank : σ → σ) (t : Table σ) : t.Keeps (t.clearWith blank) := by
  unfold clearWith
  split
  · exact Keeps.refl t
  · exact ⟨rfl, Nat.zero_le _⟩

/-- However a sweep ends, it keeps the sizing and adds no entry. -/
theorem keeps_sweep (selects : κ → ν → Reply Bool) (steps : Nat) (scan : Scan) (t : Table σ)
    (removed : Bool) : t.Keeps (t.sweep E selects steps scan removed).state := by
  induction steps generalizing scan t removed with
  | zero => exact Keeps.refl t
  | succ steps ih =>
      unfold sweep
      split
      · exact Keeps.refl t
      split
      · exact Keeps.refl t
      split
      · exact Keeps.refl t
      · exact (keeps_eraseAt ..).trans (ih ..)
      · exact ih ..

/-! ### Cursors -/

theorem keeps_openCursor (t : Table σ) : t.Keeps (t.openCursor E).table := by
  unfold openCursor
  dsimp only
  split <;> exact ⟨rfl, Nat.le_refl _⟩

namespace Cursor

variable {c : Cursor σ}

theorem keeps_setScan (c : Cursor σ) (scan : Scan) : c.table.Keeps (c.setScan scan).table := by
  unfold setScan
  split <;> exact ⟨rfl, Nat.le_refl _⟩

theorem keeps_next (c : Cursor σ) : c.table.Keeps (c.next E).2.table := keeps_setScan ..

theorem keeps_remove (c : Cursor σ) : c.table.Keeps (c.remove E).2.table := by
  unfold remove
  dsimp only
  split
  · exact keeps_setScan ..
  · exact (keeps_setScan ..).trans (keeps_eraseAt ..)

theorem keeps_writeCurrent (c : Cursor σ) (write : σ → σ) :
    c.table.Keeps (c.writeCurrent E write).2.table := by
  unfold writeCurrent
  split
  · exact Keeps.refl _
  · exact keeps_setAt ..

end Cursor

end Table

/-- What every action on a cursor keeps, a script keeps. -/
theorem CursorInterface.runScript_keeps {χ ε ω : Type} [CursorInterface χ ε ω] {P : χ → Prop}
    (hnext : ∀ c : χ, P c → P (next c).2) (hremove : ∀ c : χ, P c → P (remove c).2)
    (hwrite : ∀ (value : ω) (c : χ), P c → P (write value c).2) (script : List (CursorAction ω)) (c : χ)
    (h : P c) : P (runScript script c).2 := by
  induction script generalizing c with
  | nil => exact h
  | cons action rest ih =>
      refine ih (act action c).2 ?_
      cases action with
      | next => exact hnext c h
      | remove => exact hremove c h
      | write value =>
          rw [state_act_write]
          exact hwrite value c h

/-! ### Calls -/

section Calls

variable {τ υ γ α β σ κ ν : Type} {table : τ → Table σ} {s : τ}

/-- A call that adds entries. It ends with a result, unless a table cannot grow or a search never ends. -/
def Change.Gains (table : τ → Table σ) (s : τ) (c : Change τ α) : Prop :=
  c.result = .error .capacityOverflow ∨
    (∀ failure, c.result = .error failure → failure = .endlessSearch) ∧
      (table s).Gains (table c.state)

/-- A call that adds entries, or leaves the table at its size. -/
def Change.Sized (table : τ → Table σ) (s : τ) (c : Change τ α) : Prop :=
  c.Gains table s ∨ (table s).Keeps (table c.state)

theorem Change.Gains.map {c : Change τ α} (h : c.Gains table s) (f : α → β) :
    (c.map f).Gains table s := by
  rcases h with hoverflow | ⟨hends, hgains⟩
  · exact Or.inl (Change.map_eq_error_iff.mpr hoverflow)
  · exact Or.inr ⟨fun failure hfailure => hends failure (Change.map_eq_error_iff.mp hfailure), hgains⟩

theorem Change.Sized.map {c : Change τ α} (h : c.Sized table s) (f : α → β) :
    (c.map f).Sized table s := h.imp_left fun hgains => hgains.map f

/-- A call inside a container around the one that it changed. -/
theorem Change.Gains.within {c : Change τ α} {outer : υ → Table σ} {f : τ → υ}
    (h : c.Gains table s) (houter : ∀ s, outer (f s) = table s) :
    (c.within f).Gains outer (f s) := by
  simpa only [Change.Gains, Change.within, houter] using h

/-- A call that rewrites entries. -/
theorem Change.gains_done {u : τ} (h : (table s).Fits) (hsizing : (table u).sizing = (table s).sizing)
    (hlen : (table u).len = (table s).len) (value : α) : (Change.done u value).Gains table s :=
  Or.inr ⟨nofun, h.gains hsizing hlen⟩

theorem Change.gains_endless (h : (table s).Fits) :
    (Change.fail s .endlessSearch : Change τ α).Gains table s :=
  Or.inr ⟨by rintro _ ⟨⟩; rfl, h.gains rfl rfl⟩

/-- Filling a slot of a table that fits gains, as an operation on the table. -/
theorem Change.gains_insertAt {E : EntryLayout σ κ ν} {t : Table σ} (h : t.Fits) (index : Nat)
    (slot : σ) : (t.insertAt E index slot).Gains id t := by
  rcases h.insertAt (E := E) index slot with hoverflow | ⟨⟨j, hresult⟩, hgains⟩
  · exact Or.inl hoverflow
  · refine Or.inr ⟨fun failure hfailure => ?_, hgains⟩
    rw [hresult] at hfailure
    cases hfailure

/-- A look at what a call has left changes nothing more. -/
theorem Change.andThen_done (c : Change τ α) (f : τ → α → β) :
    (c.andThen fun u value => .done u (f u value)) = c.map (f c.state) := by
  obtain ⟨result, state, events⟩ := c
  cases result with
  | ok value => simp [Change.andThen, Change.done, Change.map, Except.map]
  | error failure => rfl

theorem Change.Gains.andThen_done {c : Change τ α} (h : c.Gains table s) (f : τ → α → β) :
    (c.andThen fun u value => .done u (f u value)).Gains table s := by
  rw [Change.andThen_done]
  exact h.map _

/-- One addition for each member of a list. -/
theorem Change.gains_forEach {step : τ → β → Change τ α}
    (hstep : ∀ s x, (table s).Fits → (step s x).Gains table s) (l : List β) (h : (table s).Fits) :
    (Change.forEach step l s).Gains table s := by
  induction l generalizing s with
  | nil => exact gains_done h rfl rfl ()
  | cons x rest ih =>
      have hfirst := hstep s x h
      simp only [Change.forEach, Change.andThen]
      cases hresult : (step s x).result with
      | error failure =>
          simpa [Change.Gains, hresult] using hfirst
      | ok value =>
          rcases hfirst with hoverflow | ⟨-, hgains⟩
          · exact absurd (hresult.symm.trans hoverflow) (by simp)
          · exact (ih hgains.fits).imp_right fun hrest => ⟨hrest.1, hgains.trans hrest.2⟩

/-- Calling a function sizes as the operation that follows, and a panic as the state it leaves behind. -/
theorem Call.sized_run {arguments : γ} {reply : Reply β} {broken : τ} {next : β → Change τ α}
    (hbroken : (table s).Keeps (table broken)) (hnext : ∀ value, (next value).Sized table s) :
    (Call.run arguments reply broken next).toChange.Sized table s := by
  cases reply with
  | panics => exact Or.inr hbroken
  | answers value => exact hnext value

end Calls

end LinearProbing
