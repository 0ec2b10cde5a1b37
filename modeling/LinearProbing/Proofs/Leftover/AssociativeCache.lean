import LinearProbing.Proofs.AssociativeCache.Operation
import LinearProbing.Proofs.Leftover.Slots
import LinearProbing.Proofs.Matching

/-!
# LinearProbing.Proofs.Leftover.AssociativeCache

**What is left in the vacant slots of a cache does not show.** Entries are moved within their set, and vacant
slots with them; a search stops at the first vacant slot before it looks at the key that is left there. The
counters of reads and stores play no part in this: two caches that are alike may have the same counters or
not, and if they have, they keep it so.
-/

namespace LinearProbing.AssociativeCache

variable {κ ν : Type} [SignedWord κ] {counting : Prop} {c d : AssociativeCache κ ν} {i : Nat} {key : κ}

/-- How the slots of a cache are read. -/
def slotLayout : Layout (CacheSlot κ ν) where
  empty := ⟨SignedWord.zero, none⟩
  vacant s := s.held.isNone
  hash s := (SignedWord.spread s.key).toNat
  leave s := { s with held := none }

/-- A slot of a cache is vacant if it holds no value, whatever its key. -/
theorem slotLayout_lawful : (slotLayout : Layout (CacheSlot κ ν)).Lawful := ⟨rfl, fun _ => rfl⟩

/-- Two caches are the same but for what is left in vacant slots. They may be known to have the same
counters. -/
structure Like (counting : Prop) (c d : AssociativeCache κ ν) : Prop where
  numSets_eq : c.numSets = d.numSets
  setSize_eq : c.setSize = d.setSize
  len_eq : c.len = d.len
  slots : slotLayout.Like c.slots d.slots
  counters : counting → c.hits = d.hits ∧ c.misses = d.misses ∧ c.puts = d.puts

/-! ### Reading -/

theorem Like.slotAt (h : c.Like counting d) (i : Nat) : slotLayout.Agree (c.slotAt i) (d.slotAt i) :=
  h.slots.agree i

/-- The slots hold the same values. -/
theorem Like.valueAt?_eq (h : c.Like counting d) (i : Nat) : c.valueAt? i = d.valueAt? i := by
  rw [valueAt?, valueAt?]
  rcases h.slotAt i with heq | ⟨hvac, hvac'⟩
  · rw [heq]
  · rw [Option.isNone_iff_eq_none.mp hvac, Option.isNone_iff_eq_none.mp hvac']

theorem Like.setStart_eq (h : c.Like counting d) (key : κ) : c.setStart key = d.setStart key := by
  rw [setStart, setStart, h.numSets_eq, h.setSize_eq]

/-- A search compares keys of occupied slots only. -/
theorem Like.positionFrom?_eq (h : c.Like counting d) (key : κ) (slots i : Nat) :
    c.positionFrom? key slots i = d.positionFrom? key slots i := by
  induction slots generalizing i with
  | zero => rfl
  | succ slots ih =>
      rw [positionFrom?, positionFrom?]
      rcases h.slotAt i with heq | ⟨hvac, hvac'⟩
      · rw [heq, ih]
      · exact (if_pos hvac).trans (if_pos hvac').symm

/-- Keys are found in the same slots. -/
theorem Like.position?_eq (h : c.Like counting d) (key : κ) : c.position? key = d.position? key := by
  rw [position?, position?, h.setStart_eq, h.setSize_eq, h.positionFrom?_eq]

/-- The entries are the same. -/
theorem Like.entries_eq (h : c.Like counting d) : c.entries = d.entries := by
  have hslots := h.slots.forall₂
  rw [entries, entries]
  generalize c.slots.toList = l, d.slots.toList = l' at hslots
  induction hslots with
  | nil => rfl
  | @cons s s' _ _ hagree _ ih =>
      rw [List.filterMap_cons, List.filterMap_cons, ih]
      rcases hagree with rfl | ⟨hvac, hvac'⟩
      · rfl
      · rw [Option.isNone_iff_eq_none.mp hvac, Option.isNone_iff_eq_none.mp hvac']
        rfl

/-- A search that finds a key has found an entry. -/
theorem isNone_of_positionFrom? {slots j : Nat} (h : c.positionFrom? key slots i = some j) :
    (c.slotAt j).held.isNone = false := by
  induction slots generalizing i with
  | zero => cases h
  | succ slots ih =>
      rw [positionFrom?] at h
      split at h
      · cases h
      · next hheld =>
        split at h
        · cases h
          exact Bool.eq_false_of_not_eq_true hheld
        · exact ih h

/-- The slot in which a key was found is the same. -/
theorem Like.slotAt_eq (h : c.Like counting d) (hposition : c.position? key = some i) :
    c.slotAt i = d.slotAt i :=
  (h.slotAt i).eq (isNone_of_positionFrom? hposition)

/-- The detailed text shows the counters, so they are to be the same. -/
theorem Like.detailedText_eq (h : c.Like counting d) (hcounting : counting) :
    c.detailedText = d.detailedText := by
  have hcounters := h.counters hcounting
  unfold detailedText
  rw [h.numSets_eq, h.setSize_eq, h.len_eq, hcounters.1, hcounters.2.1, hcounters.2.2]

theorem Like.capacity_eq (h : c.Like counting d) : c.capacity = d.capacity := h.slots.size_eq

/-! ### Changing -/

/-- Writing slots that agree leaves caches alike. -/
theorem Like.setSlot (h : c.Like counting d) (i : Nat) {s s' : CacheSlot κ ν}
    (hs : slotLayout.Agree s s') : (c.setSlot i s).Like counting (d.setSlot i s') :=
  { h with slots := h.slots.setIfInBounds i hs }

theorem Like.vacate (h : c.Like counting d) (i : Nat) : (c.vacate i).Like counting (d.vacate i) :=
  h.setSlot i (.of_vacant rfl rfl)

/-- Vacant slots are moved, too, with what is left in them. -/
theorem Like.move (h : c.Like counting d) (source target : Nat) :
    (c.move source target).Like counting (d.move source target) :=
  (h.setSlot target (h.slotAt source)).vacate source

/-- Moving the same entries back leaves caches alike. -/
theorem Like.moveBack (h : c.Like counting d) (start count : Nat) :
    (moveBack start count c).Like counting (moveBack start count d) := by
  induction count generalizing c d with
  | zero => exact h
  | succ count ih => exact ih (h.move _ _)

/-- Moving entries forward stops at the same vacant slot. -/
theorem Like.moveForward (h : c.Like counting d) (count index : Nat) :
    (moveForward count index c).Like counting (moveForward count index d) := by
  induction count generalizing c d index with
  | zero => exact h
  | succ count ih =>
      rw [AssociativeCache.moveForward, AssociativeCache.moveForward, ← h.valueAt?_eq]
      split
      · exact h
      · exact ih (h.move _ _) _

/-- Two calls that hand over the same values, report the same, and leave caches that are alike. -/
structure AlikeDisposals (counting : Prop) (x y : Disposal (AssociativeCache κ ν) ν) : Prop where
  state : x.state.Like counting y.state
  disposed : x.disposed = y.disposed
  events : x.events = y.events

/-- A new entry in front lets the same value go. -/
theorem Like.insertFront (h : c.Like counting d) (start : Nat) (key : κ) (value : ν) :
    AlikeDisposals counting (c.insertFront start key value) (d.insertFront start key value) := by
  have hfilled := ((h.vacate (start + d.setSize - 1)).moveBack start (d.setSize - 1)).setSlot start
    (.refl ⟨key, some value⟩)
  unfold AssociativeCache.insertFront
  dsimp only
  rw [h.setSize_eq, ← h.valueAt?_eq]
  split
  · exact ⟨hfilled, rfl, rfl⟩
  · exact ⟨{ hfilled with len_eq := congrArg (· + 1) h.len_eq }, rfl, rfl⟩

/-! ### Operations -/

/-- A read that finds its key is counted in both. -/
theorem Like.hit (h : c.Like counting d) :
    Like counting { c with hits := c.hits + 1 } { d with hits := d.hits + 1 } :=
  { h with counters := fun hcounting =>
      (h.counters hcounting).imp_left (congrArg (· + 1)) }

theorem Like.missed (h : c.Like counting d) :
    Like counting { c with misses := c.misses + 1 } { d with misses := d.misses + 1 } :=
  { h with counters := fun hcounting =>
      (h.counters hcounting).imp_right fun hcounters => hcounters.imp_left (congrArg (· + 1)) }

theorem Like.stored (h : c.Like counting d) :
    Like counting { c with puts := c.puts + 1 } { d with puts := d.puts + 1 } :=
  { h with counters := fun hcounting =>
      (h.counters hcounting).imp_right fun hcounters => hcounters.imp_right (congrArg (· + 1)) }

/-- The same value is read, and counted. -/
theorem Like.get (h : c.Like counting d) (key : κ) :
    (c.get key).1 = (d.get key).1 ∧ (c.get key).2.Like counting (d.get key).2 := by
  rw [AssociativeCache.get, AssociativeCache.get, ← h.position?_eq]
  cases c.position? key with
  | some i => exact ⟨h.valueAt?_eq i, h.hit⟩
  | none => exact ⟨rfl, h.missed⟩

/-- The same value is let go for one that is stored. -/
theorem Like.insert (h : c.Like counting d) (key : κ) (value : ν) :
    AlikeDisposals counting (c.insert key value) (d.insert key value) := by
  have hstored := h.stored
  unfold AssociativeCache.insert
  dsimp only
  rw [← hstored.position?_eq]
  cases hposition : position? { c with puts := c.puts + 1 } key with
  | none =>
      dsimp only
      rw [hstored.setStart_eq]
      exact hstored.insertFront _ key value
  | some i =>
      dsimp only
      -- the value is written into an occupied slot, which keeps its key
      rw [hstored.slotAt_eq hposition]
      exact ⟨hstored.setSlot i (.refl _), congrArg Option.toList (hstored.valueAt?_eq i), rfl⟩

theorem Like.extend (h : c.Like counting d) (entries : List (κ × ν)) :
    AlikeDisposals counting (c.extend entries) (d.extend entries) := by
  induction entries generalizing c d with
  | nil => exact ⟨h, rfl, rfl⟩
  | cons e rest ih =>
      obtain ⟨hfirst, hdisposed, hevents⟩ := h.insert e.1 e.2
      obtain ⟨hothers, hdisposed', hevents'⟩ := ih hfirst
      exact ⟨hothers, congrArg₂ List.append hdisposed hdisposed', congrArg₂ List.append hevents hevents'⟩

/-- A removal gives back the same value. -/
theorem Like.erase (h : c.Like counting d) (key : κ) :
    (c.erase key).1 = (d.erase key).1 ∧ (c.erase key).2.Like counting (d.erase key).2 := by
  unfold AssociativeCache.erase
  rw [← h.position?_eq]
  cases c.position? key with
  | none => exact ⟨rfl, h⟩
  | some i =>
      dsimp only
      rw [h.setStart_eq, h.setSize_eq]
      have hclosed := (h.vacate i).moveForward (d.setStart key + d.setSize - 1 - i) i
      exact ⟨h.valueAt?_eq i, { hclosed with len_eq := congrArg (· - 1) h.len_eq }⟩

/-- The same values are let go; keys may be left over in the slots. -/
theorem Like.clear (h : c.Like counting d) : AlikeDisposals counting c.clear d.clear where
  state :=
    { h with
      len_eq := rfl
      slots := h.slots.blanked slotLayout_lawful fun _ => rfl }
  disposed := congrArg (List.map Prod.snd) h.entries_eq
  events := congrArg (fun len => [Event.cacheCleared len]) h.len_eq

theorem Like.resetCounters (h : c.Like counting d) :
    c.resetCounters.Like counting d.resetCounters :=
  { h with counters := fun _ => ⟨rfl, rfl, rfl⟩ }

/-- What is let go is recorded as calls of the function that disposes of it. -/
theorem AlikeDisposals.matches {x y : Disposal (AssociativeCache κ ν) ν} (h : AlikeDisposals counting x y) :
    (DisposingCall.ofDisposal x : DisposingCall _ κ ν Unit).makingFirst.Matches (Like counting)
      (DisposingCall.ofDisposal y).makingFirst :=
  ⟨⟨rfl, h.events, h.state⟩, congrArg (List.map CacheInvocation.disposes) h.disposed⟩

/-- The function is asked for the same key, and the same value is let go for what it makes. -/
theorem Like.computeIfAbsent (h : c.Like counting d) (key : κ) (f : κ → Reply (Option ν)) :
    (c.computeIfAbsent key f).makingFirst.Matches (Like counting)
      (d.computeIfAbsent key f).makingFirst := by
  unfold AssociativeCache.computeIfAbsent
  rw [← h.position?_eq]
  cases c.position? key with
  | some i => exact ⟨⟨congrArg Except.ok (h.valueAt?_eq i), rfl, h.hit⟩, rfl⟩
  | none =>
      dsimp only
      cases f key with
      | panics => exact ⟨⟨rfl, rfl, h.missed⟩, rfl⟩
      | answers value? =>
          cases value? with
          | none => exact ⟨⟨rfl, rfl, h.missed⟩, rfl⟩
          | some value =>
              dsimp only
              rw [h.missed.setStart_eq]
              -- the read and the store are counted before anything is moved
              obtain ⟨hstate, hdisposed, hevents⟩ := h.missed.stored.insertFront
                (setStart { d with misses := d.misses + 1 } key) key value
              refine ⟨⟨congrArg Except.ok (hstate.valueAt?_eq _), hevents, hstate⟩, ?_⟩
              exact congrArg (fun disposed => [key].map CacheInvocation.makes ++ disposed.map .disposes)
                hdisposed

/-- **What is left in vacant slots shows in no operation.** -/
theorem Like.perform [BEq ν] (h : c.Like counting d) (op : Operation κ ν) :
    (op.perform c).Matches (Like counting) (op.perform d) := by
  cases op with
  | get key => exact .done (h.get key).2 (congrArg CacheAnswer.value? (h.get key).1)
  | contains key => exact .done h (by rw [contains, contains, h.position?_eq])
  | containsValue value => exact .done h (by rw [containsValue, containsValue, h.entries_eq])
  | insert key value => exact (h.insert key value).matches.map _
  | computeIfAbsent key f => exact (h.computeIfAbsent key f).map _
  | erase key => exact .done (h.erase key).2 (congrArg CacheAnswer.value? (h.erase key).1)
  | clear => exact h.clear.matches.map _
  | resetCounters => exact .done h.resetCounters rfl
  | entries => exact .done h (congrArg CacheAnswer.listed h.entries_eq)
  -- the entries that are shown are the same
  | forEach f =>
      rw [Operation.perform, Operation.perform, AssociativeCache.forEach, AssociativeCache.forEach,
        h.entries_eq]
      exact ((Call.Matches.forEach h _ _).mapCalls _).map _
  | len => exact .done h (congrArg CacheAnswer.count h.len_eq)

end LinearProbing.AssociativeCache
