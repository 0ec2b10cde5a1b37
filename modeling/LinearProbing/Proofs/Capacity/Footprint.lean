import LinearProbing.Proofs.Capacity.Resizing

/-!
# LinearProbing.Proofs.Capacity.Footprint

**The capacity of a table in closed form.** A `Footprint` is what a history leaves of itself in the size of a
table: the capacity with which the table was built or to which it was last compacted, and the greatest
number of entries that it has held since. `Footprint.capacity` computes the capacity from these, by exact
arithmetic and without regard to how the table came to hold so many.

`Resizing` says what the operations of a container do to its size. One operation keeps to the footprint
(`Resizing.describes_after`), and so does a run (`Resizing.describes_along`).
-/

namespace LinearProbing

/-! ### Operations by what they do to the size -/

/-- What an operation does to the size of a table. -/
inductive Effect where
  /-- It reads, overwrites or removes entries. -/
  | keeps
  /-- It may add entries. -/
  | inserts
  /-- It moves the entries to the least table that holds them. -/
  | compacts
  /-- It puts entries into a new table of the standard size. -/
  | renews
  deriving DecidableEq

variable {τ ω γ α σ κ ν : Type} {table : τ → Table σ} {perform : ω → τ → Call τ γ α} {effect : ω → Effect}

/-- The operations of a container do to the size of its table what is said of them. -/
structure Resizing (table : τ → Table σ) (perform : ω → τ → Call τ γ α) (effect : ω → Effect) : Prop where
  keeps : ∀ {op}, effect op = .keeps → ∀ s, (table s).Keeps (table (perform op s).state)
  inserts : ∀ {op}, effect op = .inserts → ∀ {s}, (table s).Fits →
    (perform op s).toChange.Sized table s
  compacts : ∀ {op}, effect op = .compacts → ∀ {s}, (table s).Fits →
    (∃ value, (perform op s).result = .ok value) ∧ (table s).Compacts (table (perform op s).state)
  renews : ∀ {op}, effect op = .renews → ∀ s, ∃ new, (table new).sizing = .standard ∧
    (perform op s).toChange.Gains table new

/-! ### Footprints -/

/-- What the capacity of a table depends on. -/
structure Footprint where
  loadFactor : Single
  /-- The capacity at the base point: when the table was built, or when it was last compacted. -/
  base : Nat
  /-- The greatest number of entries since the base point. -/
  peak : Nat
  deriving DecidableEq

namespace Footprint

/-- The capacity of a table that has held so many entries. -/
def capacity (f : Footprint) : Nat := max f.base (neededCapacity f.loadFactor f.peak)

/-- The footprint of a table that is built as a configuration asks. -/
def ofConfig (config : TableConfig) : Footprint where
  loadFactor := config.loadFactor
  base := leastPowerOfTwo (max config.capacity minCapacity)
  peak := 0

/-- The footprint after an operation that leaves `len` entries. -/
def after (f : Footprint) (len : Nat) : Effect → Footprint
  | .keeps | .inserts => { f with peak := max f.peak len }
  | .compacts => { f with base := neededCapacity f.loadFactor len, peak := len }
  | .renews => { loadFactor := defaultLoadFactor, base := minCapacity, peak := len }

/-- The footprint after a run. -/
def along (table : τ → Table σ) (perform : ω → τ → Call τ γ α) (effect : ω → Effect) :
    List ω → τ → Footprint → Footprint
  | [], _, f => f
  | op :: rest, s, f =>
    let next := (perform op s).state
    along table perform effect rest next (f.after (table next).len (effect op))

/-- A table has the capacity that its footprint says. -/
structure Describes (f : Footprint) (t : Table σ) : Prop where
  fits : t.Fits
  loadFactor : t.sizing.loadFactor = f.loadFactor
  len_le : t.len ≤ f.peak
  capacity : t.capacity = f.capacity

variable {f : Footprint} {t u : Table σ}

/-- A peak that was not exceeded stays. -/
theorem Describes.of_keeps (h : f.Describes t) (hu : t.Keeps u) :
    (f.after u.len .keeps).Describes u where
  fits := hu.fits h.fits
  loadFactor := (congrArg Sizing.loadFactor hu.sizing).trans h.loadFactor
  len_le := Nat.le_max_right ..
  capacity := by
    rw [hu.capacity, h.capacity, after, max_eq_left (hu.len_le.trans h.len_le)]

/-- Entries that were added count for the peak. Those that were there need no more than the capacity. -/
theorem Describes.of_gains (h : f.Describes t) (hu : t.Gains u) :
    (f.after u.len .keeps).Describes u where
  fits := hu.fits
  loadFactor := hu.loadFactor.trans h.loadFactor
  len_le := Nat.le_max_right ..
  capacity := by
    have hload := h.loadFactor ▸ h.fits.sizing.loadFactor
    have hmono : Monotone (neededCapacity f.loadFactor) := fun _ _ hle => neededCapacity_mono hload hle
    show u.capacity = max f.base (neededCapacity f.loadFactor (max f.peak u.len))
    rw [hu.capacity, h.capacity, h.loadFactor, Footprint.capacity, hmono.map_max, max_assoc]

theorem Describes.of_compacts (h : f.Describes t) (hu : t.Compacts u) :
    (f.after u.len .compacts).Describes u where
  fits := hu.fits
  loadFactor := hu.loadFactor.trans h.loadFactor
  len_le := Nat.le_refl _
  capacity := by
    show u.capacity = max (neededCapacity f.loadFactor u.len) (neededCapacity f.loadFactor u.len)
    rw [hu.capacity, max_self, hu.len, h.loadFactor]

/-- Entries in a new table of the standard size. -/
theorem describes_of_renewed (hsizing : t.sizing = .standard) (hu : t.Gains u) (f : Footprint) :
    (f.after u.len .renews).Describes u where
  fits := hu.fits
  loadFactor := by rw [hu.loadFactor, hsizing]; rfl
  len_le := Nat.le_refl _
  capacity := by
    rw [hu.capacity, Table.capacity, hsizing]
    rfl

theorem describes_ofConfig {E : EntryLayout σ κ ν} {config : TableConfig} {sizing : Sizing}
    (h : Sizing.ofConfig config = .ok sizing) (mode : IterationMode) :
    (ofConfig config).Describes (Table.ofSizing E sizing mode) := by
  have hvalid := Sizing.valid_of_ofConfig h
  unfold Sizing.ofConfig at h
  split at h
  · next hload =>
    obtain ⟨capacity, hcapacity, rfl⟩ := exists_of_map_eq_ok h
    refine ⟨Table.fits_ofSizing hvalid mode, rfl, Nat.le_refl _, ?_⟩
    have hbase : capacity = leastPowerOfTwo (max config.capacity minCapacity) := by
      unfold capacityFor at hcapacity
      split at hcapacity
      · exact absurd hcapacity (by simp)
      split at hcapacity
      · exact absurd hcapacity (by simp)
      · exact (Except.ok.inj hcapacity).symm
    have hmin : minCapacity ≤ capacity := hbase ▸ (Nat.le_max_right ..).trans (le_leastPowerOfTwo _)
    show capacity = max (leastPowerOfTwo (max config.capacity minCapacity))
      (neededCapacity config.loadFactor 0)
    rw [neededCapacity_zero hload, ← hbase, max_eq_left hmin]
  · exact absurd h (by simp)

end Footprint

/-! ### Runs -/

namespace Resizing

variable {f : Footprint} {s : τ} {op : ω}

/-- **One operation keeps to the footprint**, if it does not fail to grow the table. -/
theorem describes_after (h : Resizing table perform effect) (hf : f.Describes (table s))
    (hno : (perform op s).result ≠ .error .capacityOverflow) :
    (f.after (table (perform op s).state).len (effect op)).Describes (table (perform op s).state) := by
  cases heffect : effect op with
  | keeps => exact hf.of_keeps (h.keeps heffect s)
  | inserts =>
      rcases h.inserts heffect hf.fits with (hoverflow | ⟨-, hgains⟩) | hkeeps
      · exact absurd hoverflow hno
      · exact hf.of_gains hgains
      · exact hf.of_keeps hkeeps
  | compacts => exact hf.of_compacts (h.compacts heffect hf.fits).2
  | renews =>
      obtain ⟨new, hsizing, hoverflow | ⟨-, hgains⟩⟩ := h.renews heffect s
      · exact absurd hoverflow hno
      · exact Footprint.describes_of_renewed hsizing hgains f

/-- **A run keeps to the footprint.** -/
theorem describes_along (h : Resizing table perform effect) (ops : List ω) (hf : f.Describes (table s))
    (hno : NoOverflow (trace perform ops s)) :
    (Footprint.along table perform effect ops s f).Describes (table (finalState perform ops s)) := by
  induction ops generalizing s f with
  | nil => exact hf
  | cons op rest ih =>
      exact ih (h.describes_after hf (hno _ List.mem_cons_self))
        fun c hc => hno c (List.mem_cons_of_mem _ hc)

/-- A call that is refused, or in which a function of the caller panics, leaves the capacity. -/
theorem capacity_of_error (h : Resizing table perform effect) (hfits : (table s).Fits) {failure : Failure}
    (hfailure : (perform op s).result = .error failure) (hoverflow : failure ≠ .capacityOverflow)
    (hendless : failure ≠ .endlessSearch) :
    (table (perform op s).state).capacity = (table s).capacity := by
  have hnever : ∀ new, ¬ (perform op s).toChange.Gains table new := by
    rintro new (hresult | ⟨hends, -⟩)
    · exact hoverflow (Except.error.inj (hfailure.symm.trans hresult))
    · exact hendless (hends failure hfailure)
  cases heffect : effect op with
  | keeps => exact (h.keeps heffect s).capacity
  | inserts =>
      rcases h.inserts heffect hfits with hgains | hkeeps
      · exact absurd hgains (hnever s)
      · exact hkeeps.capacity
  | compacts =>
      obtain ⟨⟨value, hresult⟩, -⟩ := h.compacts heffect hfits
      exact absurd (hfailure.symm.trans hresult) (by simp)
  | renews =>
      obtain ⟨new, -, hgains⟩ := h.renews heffect s
      exact absurd hgains (hnever new)

/-- An operation grows the table as far as the entries need that it leaves, and no further. -/
theorem capacity_eq_max (h : Resizing table perform effect) (hfits : (table s).Fits)
    (heffect : effect op = .keeps ∨ effect op = .inserts)
    (hno : (perform op s).result ≠ .error .capacityOverflow) :
    (table (perform op s).state).capacity = max (table s).capacity
      (neededCapacity (table s).sizing.loadFactor (table (perform op s).state).len) := by
  have hkept : (table s).Keeps (table (perform op s).state) →
      (table (perform op s).state).capacity = max (table s).capacity
        (neededCapacity (table s).sizing.loadFactor (table (perform op s).state).len) := by
    intro hkeeps
    have hneeded := (hkeeps.fits hfits).neededCapacity_le
    rw [hkeeps.capacity, hkeeps.sizing] at hneeded
    rw [hkeeps.capacity, max_eq_left hneeded]
  rcases heffect with heffect | heffect
  · exact hkept (h.keeps heffect s)
  · rcases h.inserts heffect hfits with (hoverflow | ⟨-, hgains⟩) | hkeeps
    · exact absurd hoverflow hno
    · exact hgains.capacity
    · exact hkept hkeeps

end Resizing

end LinearProbing
