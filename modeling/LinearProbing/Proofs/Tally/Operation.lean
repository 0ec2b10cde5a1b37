import LinearProbing.Tally
import LinearProbing.Proofs.WordMap.Operation
import LinearProbing.Proofs.Wrapping

/-!
# LinearProbing.Proofs.Tally.Operation

**The operations of a tally.** Each is an operation of the map of words inside, whose missing value is the
initial value (`Operation.onCounts`): to set a count to the initial value is to remove it.
-/

namespace LinearProbing.Tally

variable {κ ν : Type}

/-- An operation on a tally. -/
inductive Operation (κ ν : Type) where
  | get (key : κ)
  | contains (key : κ)
  | len
  | minimum
  | maximum
  | set (key : κ) (count : ν)
  | erase (key : κ)
  | addAndGet (key : κ) (amount : ν)
  | getAndAdd (key : κ) (amount : ν)
  | incrementAndGet (key : κ)
  | decrementAndGet (key : κ)
  | getAndIncrement (key : κ)
  | getAndDecrement (key : κ)
  | computeIfAbsent (key : κ) (f : κ → Reply ν)
  | computeIfPresent (key : κ) (f : κ → ν → Reply ν)
  | compute (key : κ) (f : κ → ν → Reply ν)
  | eraseWhere (selects : κ → ν → Reply Bool)
  | forEach (f : κ → ν → Reply Unit)
  | clear
  | compact

namespace Operation

variable [SignedWord κ] [SignedWord ν]

def perform : Operation κ ν → Tally κ ν → WordMap.OperationCall (Tally κ ν) κ ν
  | get key, t => .searching [t.counts.locate key] t (.done t (.value (t.get key)))
  | contains key, t => .searching [t.counts.locate key] t (.done t (.flag (t.contains key)))
  | len, t => .done t (.count t.len)
  | minimum, t => .done t (.value t.minimum)
  | maximum, t => .done t (.value t.maximum)
  | set key count, t => .searching [t.counts.locate key] t (.quiet ((t.set key count).map .value))
  | erase key, t => .searching [t.counts.locate key] t (.done (t.erase key).2 (.value (t.erase key).1))
  | addAndGet key amount, t =>
    .searching [t.counts.locate key] t (.quiet ((t.addAndGet key amount).map .value))
  | getAndAdd key amount, t =>
    .searching [t.counts.locate key] t (.quiet ((t.getAndAdd key amount).map .value))
  | incrementAndGet key, t =>
    .searching [t.counts.locate key] t (.quiet ((t.incrementAndGet key).map .value))
  | decrementAndGet key, t =>
    .searching [t.counts.locate key] t (.quiet ((t.decrementAndGet key).map .value))
  | getAndIncrement key, t =>
    .searching [t.counts.locate key] t (.quiet ((t.getAndIncrement key).map .value))
  | getAndDecrement key, t =>
    .searching [t.counts.locate key] t (.quiet ((t.getAndDecrement key).map .value))
  | computeIfAbsent key f, t => ((t.computeIfAbsent key f).mapCalls .key).map .value
  | computeIfPresent key f, t => ((t.computeIfPresent key f).mapCalls .entry).map .value
  | compute key f, t => ((t.compute key f).mapCalls .entry).map .value
  | eraseWhere selects, t => ((t.eraseWhere selects).mapCalls .entry).map .flag
  | forEach f, t => ((t.forEach f).mapCalls .entry).map fun _ => .nothing
  | clear, t => .done t.clear .nothing
  | compact, t => .quiet (t.compact.map fun _ => .nothing)

/-- Setting a count to the initial value removes it. -/
def setting (initial : ν) (key : κ) (count : ν) : WordMap.Operation κ ν :=
  if count = initial then .erase key else .insert key count

/-- Adding to a count computes a new one; if nothing is added, the count is read only. -/
def adding (key : κ) (amount : ν) : WordMap.Operation κ ν :=
  if amount = SignedWord.zero then .get key
  else .compute key fun _ count => .answers (SignedWord.wrappingAdd count amount)

/-- What an operation does to the map of counts. -/
def onCounts (initial : ν) : Operation κ ν → WordMap.Operation κ ν
  | get key => .get key
  | contains key => .contains key
  | len | minimum | maximum => .len
  | set key count => setting initial key count
  | erase key => .erase key
  | addAndGet key amount | getAndAdd key amount => adding key amount
  | incrementAndGet key | getAndIncrement key => adding key SignedWord.one
  | decrementAndGet key | getAndDecrement key => adding key down
  | computeIfAbsent key f => .computeIfAbsent key f
  | computeIfPresent key f => .computeIfPresent key f
  | compute key f => .compute key f
  | eraseWhere selects => .eraseWhere selects
  | forEach f => .forEach f
  | clear => .clear
  | compact => .compact

omit [SignedWord κ] in
/-- The key to whose count an operation adds, and what it adds. -/
def added? : Operation κ ν → Option (κ × ν)
  | addAndGet key amount | getAndAdd key amount => some (key, amount)
  | incrementAndGet key | getAndIncrement key => some (key, SignedWord.one)
  | decrementAndGet key | getAndDecrement key => some (key, down)
  | _ => none

omit [SignedWord κ] in
theorem onCounts_of_added? {op : Operation κ ν} {key : κ} {amount : ν} (h : op.added? = some (key, amount))
    (initial : ν) : op.onCounts initial = adding key amount := by
  cases op <;> cases h <;> rfl

omit [SignedWord κ] [SignedWord ν] in
theorem counts_mk (counts : WordMap κ ν) : (Tally.mk counts).counts = counts := rfl

variable {t : Tally κ ν} {key : κ}

theorem wraps_set (hends : Probe.endless ∉ [t.counts.locate key]) (count : ν) :
    (t.set key count).Wraps counts ((setting t.initial key count).perform t.counts).toChange := by
  unfold Tally.set setting
  split
  · rw [WordMap.Operation.perform, Call.searching_of_notMem hends]
    exact .done rfl _ _
  · next hne =>
    have hchecked : t.counts.insert key count = t.counts.store key count := if_neg hne
    have hinsert : ((t.counts.store key count).within Tally.mk).Wraps counts
        (t.counts.insert key count) := hchecked ▸ Change.Wraps.within counts_mk _
    exact hinsert.map_right _

/-- A count cannot be set where the search for its key never ends. -/
theorem endless_setting (hmem : Probe.endless ∈ [t.counts.locate key]) (count : ν) :
    ((setting t.initial key count).perform t.counts).state = t.counts ∧
      ((setting t.initial key count).perform t.counts).result = .error .endlessSearch := by
  unfold setting
  split
  · rw [WordMap.Operation.perform, Call.searching_of_mem hmem]
    exact ⟨rfl, rfl⟩
  · next hne =>
    have hchecked : t.counts.insert key count = t.counts.store key count := if_neg hne
    have hinsert : t.counts.insert key count = .fail t.counts .endlessSearch := by
      rw [hchecked, WordMap.store, ← List.mem_singleton.mp hmem]
    rw [WordMap.Operation.perform, hinsert]
    exact ⟨rfl, rfl⟩

theorem wraps_add (hends : Probe.endless ∉ [t.counts.locate key]) (amount : ν) :
    (t.add key amount).Wraps counts ((adding key amount).perform t.counts).toChange := by
  unfold add adding
  dsimp only
  split
  · rw [WordMap.Operation.perform, Call.searching_of_notMem hends]
    exact .done rfl _ _
  · exact (Change.Wraps.within counts_mk
      (t.counts.compute key fun _ count =>
        .answers (SignedWord.wrappingAdd count amount)).toChange).map _ _

/-- Nothing is added to a count where the search for its key never ends. -/
theorem endless_adding (hmem : Probe.endless ∈ [t.counts.locate key]) (amount : ν) :
    ((adding key amount).perform t.counts).state = t.counts ∧
      ((adding key amount).perform t.counts).result = .error .endlessSearch := by
  unfold adding
  split
  · rw [WordMap.Operation.perform, Call.searching_of_mem hmem]
    exact ⟨rfl, rfl⟩
  · rw [WordMap.Operation.perform, WordMap.compute, ← List.mem_singleton.mp hmem]
    exact ⟨rfl, rfl⟩

/-- **Every operation is passed on** to the map of counts. -/
theorem wraps (op : Operation κ ν) (t : Tally κ ν) :
    (op.perform t).toChange.Wraps counts ((op.onCounts t.initial).perform t.counts).toChange := by
  have hadd : ∀ (key : κ) (amount : ν) (f : ν × ν → ν),
      (Call.searching [t.counts.locate key] t (.quiet (((t.add key amount).map f).map Answer.value) :
        WordMap.OperationCall (Tally κ ν) κ ν)).toChange.Wraps counts
          ((adding key amount).perform t.counts).toChange := fun key amount _ =>
    .searching_left (fun hends => ((wraps_add hends amount).map_left _).map_left _)
      fun hmem => endless_adding hmem amount
  cases op with
  | set key count =>
      exact .searching_left (fun hends => (wraps_set hends count).map_left _)
        fun hmem => endless_setting hmem count
  | addAndGet | getAndAdd | incrementAndGet | decrementAndGet | getAndIncrement | getAndDecrement =>
      exact hadd ..
  | computeIfAbsent key f =>
      exact (Change.Wraps.within counts_mk (t.counts.computeIfAbsent key f).toChange).map _ _
  | computeIfPresent key f =>
      exact (Change.Wraps.within counts_mk (t.counts.computeIfPresent key f).toChange).map _ _
  | compute key f =>
      exact (Change.Wraps.within counts_mk (t.counts.compute key f).toChange).map _ _
  | eraseWhere selects =>
      exact (Change.Wraps.within counts_mk (t.counts.eraseWhere selects).toChange).map _ _
  | forEach f => exact (Change.Wraps.within counts_mk (t.counts.forEach f).toChange).map _ _
  | compact => exact (Change.Wraps.within counts_mk t.counts.compact).map _ _
  | get | contains | erase => exact .searching (.done rfl _ _) rfl _
  | len | minimum | maximum | clear => exact .done rfl _ _

end Operation

end LinearProbing.Tally
