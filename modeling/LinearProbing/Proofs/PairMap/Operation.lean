import LinearProbing.PairMap
import LinearProbing.Proofs.ValueMap.Operation
import LinearProbing.Proofs.Wrapping

/-!
# LinearProbing.Proofs.PairMap.Operation

**The operations of a map keyed by pairs of words.** Each is an operation of the map of words inside, with
the pair as one word (`Operation.onInner`).
-/

namespace LinearProbing.PairMap

variable {ν : Type}

/-- An operation on a map keyed by pairs of words. -/
inductive Operation (ν : Type) where
  | get? (pair : Int32 × Int32)
  | contains (pair : Int32 × Int32)
  | containsValue (value : ν)
  | len
  | insert (pair : Int32 × Int32) (value : ν)
  | insertIfAbsent (pair : Int32 × Int32) (value : ν)
  | extend (entries : List ((Int32 × Int32) × ν))
  | replace (pair : Int32 × Int32) (value : ν)
  | modify (pair : Int32 × Int32) (f : ν → ν)
  | erase (pair : Int32 × Int32)
  | eraseIfValue (pair : Int32 × Int32) (value : ν)
  | eraseWhere (selects : Int32 × Int32 → ν → Reply Bool)
  | retain (keeps : Int32 × Int32 → ν → Reply Bool)
  | forEach (f : Int32 × Int32 → ν → Reply Unit)
  | clear
  | compact
  | copy
  | computeIfAbsent (pair : Int32 × Int32) (f : Int32 × Int32 → Reply (Option ν))
  | computeIfPresent (pair : Int32 × Int32) (f : Int32 × Int32 → ν → Reply (Option ν))
  | compute (pair : Int32 × Int32) (f : Int32 × Int32 → Option ν → Reply (Option ν))
  | merge (pair : Int32 × Int32) (value : ν) (f : ν → ν → Reply (Option ν))

abbrev OperationCall (ν : Type) : Type :=
  Call (PairMap ν) (Invocation (Int32 × Int32) ((Int32 × Int32) × Option ν) ν)
    (Answer ((Int32 × Int32) × Option ν) ν)

namespace Operation

variable [BEq ν]

def perform : Operation ν → PairMap ν → OperationCall ν
  | get? pair, m => .searching [m.inner.locate (keyOf pair)] m (.done m (.value? (m.get? pair)))
  | contains pair, m => .searching [m.inner.locate (keyOf pair)] m (.done m (.flag (m.contains pair)))
  | containsValue value, m => .done m (.flag (m.containsValue value))
  | len, m => .done m (.count m.len)
  | insert pair value, m => .quiet ((m.insert pair value).map .value?)
  | insertIfAbsent pair value, m => .quiet ((m.insertIfAbsent pair value).map .value?)
  | extend entries, m => .quiet ((m.extend entries).map fun _ => .nothing)
  | replace pair value, m =>
    .searching [m.inner.locate (keyOf pair)] m
      (.done (m.replace pair value).2 (.value? (m.replace pair value).1))
  | modify pair f, m =>
    .searching [m.inner.locate (keyOf pair)] m (.done (m.modify pair f).2 (.value? (m.modify pair f).1))
  | erase pair, m =>
    .searching [m.inner.locate (keyOf pair)] m (.done (m.erase pair).2 (.value? (m.erase pair).1))
  | eraseIfValue pair value, m =>
    .searching [m.inner.locate (keyOf pair)] m
      (.done (m.eraseIfValue pair value).2 (.flag (m.eraseIfValue pair value).1))
  | eraseWhere selects, m =>
    ((m.eraseWhere selects).mapCalls fun e => .entry (e.1, some e.2)).map .flag
  | retain keeps, m =>
    ((m.retain keeps).mapCalls fun e => .entry (e.1, some e.2)).map fun _ => .nothing
  | forEach f, m =>
    ((m.forEach f).mapCalls fun e => .entry (e.1, some e.2)).map fun _ => .nothing
  | clear, m => .done m.clear .nothing
  | compact, m => .quiet (m.compact.map fun _ => .nothing)
  | copy, m => .done m.copy .nothing
  | computeIfAbsent pair f, m => ((m.computeIfAbsent pair f).mapCalls .key).map .value?
  | computeIfPresent pair f, m =>
    ((m.computeIfPresent pair f).mapCalls fun e => .entry (e.1, some e.2)).map .value?
  | compute pair f, m => ((m.compute pair f).mapCalls .entry).map .value?
  | merge pair value f, m =>
    ((m.merge pair value f).mapCalls fun v => .values v.1 v.2).map .value?

omit [BEq ν] in
/-- A predicate on pairs and values as one on stored entries. There are no nulls to select. -/
def onStored (selects : Int32 × Int32 → ν → Reply Bool) (key : Int64) : Option ν → Reply Bool
  | none => .answers false
  | some value => selects (splitKey key) value

omit [BEq ν] in
/-- A function of pairs and values as one of stored entries. There are no nulls to show. -/
def onShown (f : Int32 × Int32 → ν → Reply Unit) (key : Int64) : Option ν → Reply Unit
  | none => .answers ()
  | some value => f (splitKey key) value

omit [BEq ν] in
/-- What an operation does to the map inside. -/
def onInner : Operation ν → ValueMap.Operation (WordSlot Int64 ν) Spreading Int64 ν
  | get? pair => .get? (keyOf pair)
  | contains pair => .contains (keyOf pair)
  | containsValue value => .containsValue value
  | len => .len
  | insert pair value => .insert (keyOf pair) value
  | insertIfAbsent pair value => .insertIfAbsent (keyOf pair) value
  | extend entries => .extend (entries.map fun e => (keyOf e.1, e.2))
  | replace pair value => .replace (keyOf pair) value
  | modify pair f => .modify (keyOf pair) f
  | erase pair => .erase (keyOf pair)
  | eraseIfValue pair value => .eraseIfValue (keyOf pair) value
  | eraseWhere selects => .eraseWhere (onStored selects)
  | retain keeps => .eraseWhere (onStored fun pair value => (keeps pair value).map not)
  | forEach f => .forEach (onShown f)
  | clear => .clear
  | compact => .compact
  | copy => .copy
  | computeIfAbsent pair f => .computeIfAbsent (keyOf pair) fun _ => f pair
  | computeIfPresent pair f => .computeIfPresent (keyOf pair) fun _ value => f pair value
  | compute pair f => .compute (keyOf pair) fun _ old => f pair old
  | merge pair value f => .merge (keyOf pair) value f

omit [BEq ν] in
/-- Showing the pairs and their values is showing what is stored. -/
theorem wraps_forEach (f : Int32 × Int32 → ν → Reply Unit) (m : PairMap ν) :
    (m.forEach f).toChange.Wraps PairMap.inner (m.inner.forEach (onShown f)).toChange := by
  rw [PairMap.forEach, PairMap.entries, ValueMap.valueEntries, ValueMap.forEach]
  induction m.inner.entries with
  | nil => exact .done rfl () ()
  | cons e rest ih =>
      obtain ⟨key, _ | value⟩ := e
      · exact ih
      · simp only [List.filterMap_cons, Option.map_some, List.map_cons, Call.forEach, onShown]
        cases f (splitKey key) value with
        | panics => exact ⟨rfl, fun _ => Iff.rfl⟩
        | answers => exact ih

/-- **Every operation is passed on** to the map inside. -/
theorem wraps (op : Operation ν) (m : PairMap ν) :
    (op.perform m).toChange.Wraps PairMap.inner (op.onInner.perform m.inner).toChange := by
  have hinner : ∀ inner : WordKeyMap Int64 ν, (PairMap.mk inner).inner = inner := fun _ => rfl
  have hinsert : ∀ (m : PairMap ν) (pair : Int32 × Int32) (value : ν),
      (m.insert pair value).Wraps PairMap.inner (m.inner.insert (keyOf pair) value) :=
    fun _ _ _ => .within hinner _
  cases op with
  | insert pair value => exact (hinsert m pair value).map _ _
  | insertIfAbsent pair value =>
      have h : (m.insertIfAbsent pair value).Wraps PairMap.inner
        (m.inner.insertIfAbsent (keyOf pair) value) := .within hinner _
      exact h.map _ _
  | extend entries =>
      have h : (m.extend entries).Wraps PairMap.inner
        (m.inner.extend (entries.map fun e => (keyOf e.1, e.2))) :=
        .forEach (fun m e => hinsert m e.1 e.2) entries m
      exact h.map _ _
  | eraseWhere selects =>
      have h : (m.eraseWhere selects).toChange.Wraps PairMap.inner
        (m.inner.eraseWhere (onStored selects)).toChange := .within hinner _
      exact h.map _ _
  | retain keeps =>
      have h : (m.retain keeps).toChange.Wraps PairMap.inner
        (m.inner.eraseWhere (onStored fun pair value => (keeps pair value).map not)).toChange :=
        (Change.Wraps.within hinner _).map_left _
      exact h.map _ _
  | compact =>
      have h : m.compact.Wraps PairMap.inner m.inner.compact := .within hinner _
      exact h.map _ _
  | computeIfAbsent pair f =>
      have h : (m.computeIfAbsent pair f).toChange.Wraps PairMap.inner
        (m.inner.computeIfAbsent (keyOf pair) fun _ => f pair).toChange := .within hinner _
      exact h.map _ _
  | computeIfPresent pair f =>
      have h : (m.computeIfPresent pair f).toChange.Wraps PairMap.inner
        (m.inner.computeIfPresent (keyOf pair) fun _ value => f pair value).toChange :=
        .within hinner _
      exact h.map _ _
  | compute pair f =>
      have h : (m.compute pair f).toChange.Wraps PairMap.inner
        (m.inner.compute (keyOf pair) fun _ old => f pair old).toChange := .within hinner _
      exact h.map _ _
  | merge pair value f =>
      have h : (m.merge pair value f).toChange.Wraps PairMap.inner
        (m.inner.merge (keyOf pair) value f).toChange := .within hinner _
      exact h.map _ _
  | forEach f => exact (wraps_forEach f m).map _ _
  | get? | contains | replace | modify | erase | eraseIfValue => exact .searching (.done rfl _ _) rfl _
  | containsValue | len | clear | copy => exact .done rfl _ _

end Operation

end LinearProbing.PairMap
