import LinearProbing.Proofs.Contents
import LinearProbing.Proofs.FiniteMap.Image
import LinearProbing.Proofs.PairMap.Specification

/-!
# LinearProbing.Proofs.PairMap.Refinement

**A map keyed by pairs of words refines a finite map keyed by pairs.** Whatever is done to a new map, every
call gives the result that it gives on a plain finite map from pairs to values, and runs the functions of the
caller with the same pairs and values; what is done to one pair does not show under another one.

The map inside stands for the image of the plain map (`FiniteMap.image`), in which pairs are written as words
and values as ones that may be null. As different pairs are different words, an operation on the image is the
image of one on pairs, and this is all there is to show about each.
-/

namespace LinearProbing.PairMap

variable {ν : Type} {within : Prop} {m : PairMap ν} {P : FiniteMap (Int32 × Int32) ν}
  {pair : Int32 × Int32} {value : ν}

/-! ### Images of operations -/

namespace Spec

/-- What is settled under a pair is settled under the word for it. -/
theorem within_settle (P : FiniteMap (Int32 × Int32) ν) (pair : Int32 × Int32)
    {keep : ν → FiniteMap (Int32 × Int32) ν} {keep' : ν → FiniteMap Int64 (Option ν)}
    (hkeep : ∀ value, (keep value).image keyOf = keep' value) :
    (fun computed => (settle P pair keep computed).within (FiniteMap.image keyOf)) =
      ValueMap.Spec.settle (P.image keyOf) (keyOf pair) keep' := by
  funext computed
  cases computed with
  | none => exact congrArg (Change.done · none) (FiniteMap.image_erase keyOf_beq_keyOf P pair)
  | some value => exact congrArg (Change.done · (some value)) (hkeep value)

/-- Computing for an absent pair is computing for the word, with the pair shown to the function. -/
theorem within_computeIfAbsent (P : FiniteMap (Int32 × Int32) ν) (pair : Int32 × Int32)
    (f : Int32 × Int32 → Reply (Option ν)) :
    (computeIfAbsent P pair f).within (FiniteMap.image keyOf) =
      (ValueMap.Spec.computeIfAbsent (P.image keyOf) (keyOf pair) fun _ => f pair).mapCalls
        fun _ => pair := by
  rw [computeIfAbsent, ValueMap.Spec.computeIfAbsent, FiniteMap.read_image keyOf_beq_keyOf]
  cases P.get? pair with
  | some old => rfl
  | none =>
      dsimp only
      rw [Call.within_run, Call.mapCalls_run]
      refine congrArg (Call.run pair (f pair) _) (funext fun computed => ?_)
      -- nothing is stored for a null, neither under the pair nor under the word
      cases computed with
      | none => rfl
      | some value =>
          exact congrArg (Change.done · (some value))
            (FiniteMap.image_insert keyOf_beq_keyOf P pair value)

/-- Computing from the value of a pair is computing from that of the word. -/
theorem within_computeIfPresent (P : FiniteMap (Int32 × Int32) ν) (pair : Int32 × Int32)
    (f : Int32 × Int32 → ν → Reply (Option ν)) :
    (computeIfPresent P pair f).within (FiniteMap.image keyOf) =
      (ValueMap.Spec.computeIfPresent (P.image keyOf) (keyOf pair) fun _ => f pair).mapCalls
        fun e => (pair, e.2) := by
  rw [computeIfPresent, ValueMap.Spec.computeIfPresent, FiniteMap.find?_image keyOf_beq_keyOf,
    FiniteMap.get?_eq]
  cases P.find? pair with
  | none => rfl
  | some e =>
      dsimp only [Option.map_some]
      rw [Call.within_run, Call.mapCalls_run, FiniteMap.image_erase keyOf_beq_keyOf,
        within_settle P pair fun value => FiniteMap.image_insert keyOf_beq_keyOf P pair value]
      rfl

/-- Computing for a pair, present or absent, is computing for the word. -/
theorem within_compute (P : FiniteMap (Int32 × Int32) ν) (pair : Int32 × Int32)
    (f : Int32 × Int32 → Option ν → Reply (Option ν)) :
    (compute P pair f).within (FiniteMap.image keyOf) =
      (ValueMap.Spec.compute (P.image keyOf) (keyOf pair) fun _ => f pair).mapCalls
        fun e => (pair, e.2) := by
  rw [compute, ValueMap.Spec.compute, FiniteMap.read_image keyOf_beq_keyOf, Call.within_run,
    Call.mapCalls_run, FiniteMap.image_erase keyOf_beq_keyOf,
    within_settle P pair fun value => FiniteMap.image_put keyOf_beq_keyOf P pair value]
  rfl

/-- Merging under a pair is merging under the word. -/
theorem within_merge (P : FiniteMap (Int32 × Int32) ν) (pair : Int32 × Int32) (value : ν)
    (f : ν → ν → Reply (Option ν)) :
    (merge P pair value f).within (FiniteMap.image keyOf) =
      ValueMap.Spec.merge (P.image keyOf) (keyOf pair) value f := by
  rw [merge, ValueMap.Spec.merge, FiniteMap.read_image keyOf_beq_keyOf]
  cases P.get? pair with
  | some old =>
      dsimp only
      rw [Call.within_run, FiniteMap.image_erase keyOf_beq_keyOf,
        within_settle P pair fun value => FiniteMap.image_put keyOf_beq_keyOf P pair value]
      rfl
  | none =>
      exact congrArg (Call.done · (some value)) (FiniteMap.image_put keyOf_beq_keyOf P pair value)

end Spec

/-! ### What a map stands for -/

/-- A usable map with the entries of a finite map from pairs. -/
def Represents (within : Prop) (m : PairMap ν) (P : FiniteMap (Int32 × Int32) ν) : Prop :=
  m.inner.RepresentsImage keyOf {} within P

/-- A map whose table holds too many entries. -/
def Overfull (within : Prop) (m : PairMap ν) : Prop := m.inner.Overfull {} .nonNull within

/-- A change of a map does what is specified of it. -/
abbrev Changes (within : Prop) {α : Type} (c : Change (PairMap ν) α)
    (d : Change (FiniteMap (Int32 × Int32) ν) α) : Prop :=
  c.Tracks (Represents within) (Overfull within) d

/-- A call on a map does what is specified of it. -/
abbrev Calls (within : Prop) {γ α : Type} (c : Call (PairMap ν) γ α)
    (d : Call (FiniteMap (Int32 × Int32) ν) γ α) : Prop :=
  c.Tracks (Represents within) (Overfull within) d

/-- The slots of the map inside are lawful. -/
theorem lawfulSlots : ValueMap.LawfulSlots (WordSlot Int64 ν) ({} : Spreading) := wordSlot_lawful {}

/-- What is specified of the map inside is the image of what is specified of the map. -/
theorem changes_of_inner {α : Type} {c : Change (WordKeyMap Int64 ν) α}
    {d : Change (FiniteMap (Int32 × Int32) ν) α} {d' : Change (FiniteMap Int64 (Option ν)) α}
    (h : ValueMap.Changes {} .nonNull within c d') (hd : d.within (FiniteMap.image keyOf) = d') :
    Changes within (c.within PairMap.mk) d := by
  subst hd
  exact h.of_within (fun _ _ h => h) fun _ h => h

/-- **What the map of words does for the words of pairs is done for the pairs.** -/
theorem calls_of_inner {γ α : Type} {c : Call (WordKeyMap Int64 ν) γ α}
    {d : Call (FiniteMap (Int32 × Int32) ν) γ α} {d' : Call (FiniteMap Int64 (Option ν)) γ α}
    (h : ValueMap.Calls {} .nonNull within c d') (hd : d.within (FiniteMap.image keyOf) = d') :
    Calls within (c.within PairMap.mk) d := by
  subst hd
  exact h.of_within (fun _ _ h => h) fun _ h => h

namespace Represents

variable (h : m.Represents within P)
include h

/-- The entries are read back from words to pairs. -/
theorem entries_perm : m.entries.Perm P.entries := by
  have hvalues := ValueMap.RepresentsImage.valueEntries_perm h
  rw [← map_keyed_entries] at hvalues
  have hkeyed : Function.Injective (keyed : (Int32 × Int32) × ν → Int64 × ν) := by
    rintro ⟨p, v⟩ ⟨q, w⟩ heq
    obtain ⟨hkey, hvalue⟩ := Prod.mk.inj heq
    exact Prod.ext (keyOf_injective hkey) hvalue
  exact (List.map_perm_map_iff hkeyed).mp hvalues

/-- Different pairs have different words. -/
theorem distinct : P.Distinct := ValueMap.RepresentsImage.distinct keyOf_beq_keyOf h

theorem len_eq : m.len = P.size := ValueMap.RepresentsImage.len_eq h

/-- The value of a pair is that of its word. -/
theorem get?_eq (pair : Int32 × Int32) : m.get? pair = P.get? pair :=
  ValueMap.RepresentsImage.get?_eq keyOf_beq_keyOf lawfulSlots h pair

/-- Every search ends. -/
theorem endless_notMem (pair : Int32 × Int32) : Probe.endless ∉ [m.inner.locate (keyOf pair)] :=
  ValueMap.Represents.endless_notMem h lawfulSlots (keyOf pair)

theorem contains_eq (pair : Int32 × Int32) : m.contains pair = P.contains pair :=
  ValueMap.RepresentsImage.contains_eq keyOf_beq_keyOf lawfulSlots h pair

/-- Values are the same under pairs and under words. -/
theorem containsValue_eq [BEq ν] (value : ν) :
    m.containsValue value = P.entries.any (·.2 == value) := by
  rw [PairMap.containsValue, ValueMap.Represents.containsValue_eq h, FiniteMap.image, List.any_map]
  rfl

/-! ### Storing and removing -/

/-- Storing under a pair stores under its word. -/
theorem insert (pair : Int32 × Int32) (value : ν) :
    Changes within (m.insert pair value) (Spec.insert P pair value) := by
  have hstore := ValueMap.RepresentsImage.store keyOf_beq_keyOf lawfulSlots h pair value
  exact hstore.within (f := PairMap.mk) (g := id) (fun _ _ hstate => hstate) fun _ hbroken => hbroken

theorem insertIfAbsent (pair : Int32 × Int32) (value : ν) :
    Changes within (m.insertIfAbsent pair value) (Spec.insertIfAbsent P pair value) := by
  refine changes_of_inner (ValueMap.Represents.insertIfAbsent h lawfulSlots) ?_
  rw [ValueMap.Spec.insertIfAbsent, Spec.insertIfAbsent, FiniteMap.read_image keyOf_beq_keyOf]
  cases P.get? pair with
  | some old => rfl
  | none => exact congrArg (Change.done · none) (FiniteMap.image_insert keyOf_beq_keyOf P pair value)

/-- A list is stored entry by entry. -/
theorem extend (entries : List ((Int32 × Int32) × ν)) :
    Changes within (m.extend entries)
      (.done (entries.foldl (fun m e => m.insert e.1 e.2) P) ()) := by
  rw [← Change.forEach_done entries P]
  exact Change.Tracks.forEach h fun e _ {_ _} hstate => Represents.insert hstate e.1 e.2

/-- Replacing the value of a pair. -/
theorem replace (pair : Int32 × Int32) (value : ν) :
    (m.replace pair value).1 = P.get? pair ∧
      (m.replace pair value).2.Represents within (Spec.replace P pair value) := by
  obtain ⟨hold, hstate⟩ := ValueMap.Represents.replace h lawfulSlots (keyOf pair) value
  rw [FiniteMap.read_image keyOf_beq_keyOf] at hold
  refine ⟨hold, ?_⟩
  rw [ValueMap.Spec.replace, FiniteMap.contains_image keyOf_beq_keyOf,
    ← FiniteMap.image_insert keyOf_beq_keyOf, ← apply_ite] at hstate
  exact hstate

/-- Changing the value of a pair where it is. -/
theorem modify (pair : Int32 × Int32) (f : ν → ν) :
    (m.modify pair f).1 = (P.get? pair).map f ∧
      (m.modify pair f).2.Represents within (Spec.modify P pair f) := by
  obtain ⟨hnew, hstate⟩ := ValueMap.Represents.modify h lawfulSlots (keyOf pair) f
  rw [FiniteMap.read_image keyOf_beq_keyOf] at hnew
  refine ⟨hnew, ?_⟩
  rw [ValueMap.Spec.modify, FiniteMap.read_image keyOf_beq_keyOf] at hstate
  rw [Spec.modify]
  -- no null is ever stored, so the word has a value exactly if the pair has one
  cases hget : P.get? pair with
  | some old =>
      rw [hget] at hstate
      dsimp only at hstate ⊢
      rwa [← FiniteMap.image_insert keyOf_beq_keyOf] at hstate
  | none =>
      rw [hget] at hstate
      exact hstate

theorem erase (pair : Int32 × Int32) :
    (m.erase pair).1 = P.get? pair ∧ (m.erase pair).2.Represents within (P.erase pair) :=
  ValueMap.RepresentsImage.erase keyOf_beq_keyOf lawfulSlots h pair

/-- Removing a pair that has the value expected. -/
theorem eraseIfValue [BEq ν] (pair : Int32 × Int32) (value : ν) :
    (m.eraseIfValue pair value).1 = (P.get? pair == some value) ∧
      (m.eraseIfValue pair value).2.Represents within (Spec.eraseIfValue P pair value) := by
  obtain ⟨hanswer, hstate⟩ := ValueMap.Represents.eraseIfValue h lawfulSlots (keyOf pair) value
  rw [FiniteMap.read_image keyOf_beq_keyOf] at hanswer
  refine ⟨hanswer, ?_⟩
  rw [ValueMap.Spec.eraseIfValue, FiniteMap.read_image keyOf_beq_keyOf,
    ← FiniteMap.image_erase keyOf_beq_keyOf, ← apply_ite] at hstate
  exact hstate

theorem clear : m.clear.Represents within {} := ValueMap.Represents.clear h lawfulSlots

theorem compact : Changes within m.compact (.done P ()) :=
  changes_of_inner (ValueMap.Represents.compact h lawfulSlots) rfl

theorem copy : m.copy.Represents within P := ValueMap.Represents.copy h

/-- **Removing by a predicate** asks about pairs as they were stored, in some order. -/
theorem exists_eraseWhere :
    ∃ order, order.Perm P.entries ∧ ∀ selects : Int32 × Int32 → ν → Reply Bool,
      Calls within (m.eraseWhere selects) (Spec.eraseWhere order selects) := by
  obtain ⟨order, hperm, horder⟩ := FiniteMap.exists_order (ValueMap.Represents.scanOrder_perm h)
  refine ⟨order, hperm, fun selects => ?_⟩
  have hswept := ValueMap.Represents.eraseWhere h lawfulSlots (Operation.onStored selects)
  rw [ValueMap.Spec.eraseWhere, horder, sift_map] at hswept
  simp only [Operation.onStored, keyOf, splitKey_composeKey] at hswept
  refine .inl ⟨⟨hswept.result, hswept.ends, hswept.state⟩, ?_⟩
  -- the predicate is shown pairs, while the sweep passes words: the calls are read back through the split
  have hcalls := congrArg (List.filterMap fun e : Int64 × Option ν => e.2.map (splitKey e.1, ·))
    hswept.calls
  refine hcalls.trans ?_
  change List.filterMap _ (List.map _ _) = (sift _ order false).calls
  rw [List.filterMap_map]
  simp only [Function.comp_def, splitKey_composeKey, Option.map_some]
  exact List.filterMap_some

/-! ### Computing -/

/-- **A computed value** is stored under an absent pair. -/
theorem computeIfAbsent (pair : Int32 × Int32) (f : Int32 × Int32 → Reply (Option ν)) :
    Calls within (m.computeIfAbsent pair f) (Spec.computeIfAbsent P pair f) :=
  calls_of_inner ((ValueMap.Represents.computeIfAbsent h lawfulSlots).mapCalls _)
    (Spec.within_computeIfAbsent P pair f)

/-- **A value is computed from that of a pair.** -/
theorem computeIfPresent (pair : Int32 × Int32) (f : Int32 × Int32 → ν → Reply (Option ν)) :
    Calls within (m.computeIfPresent pair f) (Spec.computeIfPresent P pair f) :=
  calls_of_inner ((ValueMap.Represents.computeIfPresent h lawfulSlots).mapCalls _)
    (Spec.within_computeIfPresent P pair f)

/-- **A value is computed for a pair**, present or absent. -/
theorem compute (pair : Int32 × Int32) (f : Int32 × Int32 → Option ν → Reply (Option ν)) :
    Calls within (m.compute pair f) (Spec.compute P pair f) :=
  calls_of_inner ((ValueMap.Represents.compute h lawfulSlots).mapCalls _)
    (Spec.within_compute P pair f)

/-- **A value is merged with that of a pair.** -/
theorem merge (pair : Int32 × Int32) (value : ν) (f : ν → ν → Reply (Option ν)) :
    Calls within (m.merge pair value f) (Spec.merge P pair value f) :=
  calls_of_inner (ValueMap.Represents.merge h lawfulSlots) (Spec.within_merge P pair value f)

/-! ### All operations -/

/-- **Every operation does what is specified of it.** -/
theorem perform [BEq ν] (op : Operation ν) :
    ∃ d, op.Allows P d ∧ Calls within (op.perform m) d := by
  -- entries are shown in the order of the slots, all else goes through them in that of a scan
  by_cases hshows : ∃ f, op = .forEach f
  · obtain ⟨f, rfl⟩ := hshows
    exact ⟨_, ⟨m.entries, h.entries_perm, rfl⟩, .inl (((Call.Agrees.forEach h _ _).mapCalls _).map _)⟩
  obtain ⟨order, horder, hsweep⟩ := h.exists_eraseWhere
  refine ⟨_, ⟨order, horder, rfl⟩, ?_⟩
  cases op with
  | get? pair =>
      rw [Operation.perform, Call.searching_of_notMem (h.endless_notMem pair), h.get?_eq]
      exact .done h _
  | contains pair =>
      rw [Operation.perform, Call.searching_of_notMem (h.endless_notMem pair), h.contains_eq]
      exact .done h _
  | containsValue value =>
      rw [Operation.perform, h.containsValue_eq]
      exact .done h _
  | len =>
      rw [Operation.perform, h.len_eq]
      exact .done h _
  | insert pair value => exact .quiet ((h.insert pair value).map _)
  | insertIfAbsent pair value => exact .quiet ((h.insertIfAbsent pair value).map _)
  | extend entries => exact .quiet ((h.extend entries).map fun _ => Answer.nothing)
  | replace pair value =>
      obtain ⟨hold, hstate⟩ := h.replace pair value
      rw [Operation.perform, Call.searching_of_notMem (h.endless_notMem pair), hold]
      exact .done hstate _
  | modify pair f =>
      obtain ⟨hnew, hstate⟩ := h.modify pair f
      rw [Operation.perform, Call.searching_of_notMem (h.endless_notMem pair), hnew]
      exact .done hstate _
  | erase pair =>
      obtain ⟨hold, hstate⟩ := h.erase pair
      rw [Operation.perform, Call.searching_of_notMem (h.endless_notMem pair), hold]
      exact .done hstate _
  | eraseIfValue pair value =>
      obtain ⟨hanswer, hstate⟩ := h.eraseIfValue pair value
      rw [Operation.perform, Call.searching_of_notMem (h.endless_notMem pair), hanswer]
      exact .done hstate _
  | eraseWhere selects => exact ((hsweep selects).mapCalls _).map _
  | retain keeps => exact (((hsweep _).map fun _ => ()).mapCalls _).map _
  | forEach f => exact absurd ⟨f, rfl⟩ hshows
  | clear => exact .done h.clear _
  | compact => exact .quiet (h.compact.map _)
  | copy => exact .done h.copy _
  | computeIfAbsent pair f => exact ((h.computeIfAbsent pair f).mapCalls _).map _
  | computeIfPresent pair f => exact ((h.computeIfPresent pair f).mapCalls _).map _
  | compute pair f => exact ((h.compute pair f).mapCalls _).map _
  | merge pair value f => exact ((h.merge pair value f).mapCalls _).map _

end Represents

/-! ### Other pairs -/

section OtherPairs

variable {other : Int32 × Int32} (hne : (pair == other) = false)
  {keep : ν → FiniteMap (Int32 × Int32) ν} (hkeep : ∀ value, (keep value).get? other = P.get? other)

include hne hkeep

/-- The end of a computation on one pair leaves the value of another one, if the way in which it keeps what was
computed does. -/
theorem Spec.get?_settle (computed : Option ν) :
    (settle P pair keep computed).state.get? other = P.get? other := by
  cases computed with
  | none => exact P.get?_erase_of_ne hne
  | some value => exact hkeep value

/-- So does the whole computation, whether the function of the caller answers or panics. -/
theorem Spec.get?_run_settle {γ : Type} {arguments : γ} {reply : Reply (Option ν)} :
    (Call.run arguments reply (P.erase pair) (settle P pair keep)).state.get? other = P.get? other :=
  Call.state_run (P := fun Q : FiniteMap (Int32 × Int32) ν => Q.get? other = P.get? other)
    (P.get?_erase_of_ne hne) (Spec.get?_settle hne hkeep)

end OtherPairs

/-- An operation on one pair leaves the values of the others. -/
theorem Operation.get?_specify [BEq ν] {op : Operation ν} (hop : op.pair? = some pair)
    (order : List ((Int32 × Int32) × ν)) (P : FiniteMap (Int32 × Int32) ν) {other : Int32 × Int32}
    (hother : other ≠ pair) : (op.specify order P).state.get? other = P.get? other := by
  have hne : (pair == other) = false := beq_false_of_ne hother.symm
  -- one case for each operation that names a pair; the others name none
  cases op with
  | get? | contains => rfl
  | insert p value => cases hop; exact P.get?_insert_of_ne hne value
  | insertIfAbsent p value =>
      cases hop
      simp only [specify, Spec.insertIfAbsent]
      cases P.get? pair with
      | some old => rfl
      | none => exact P.get?_insert_of_ne hne value
  | replace p value =>
      cases hop
      simp only [specify, Spec.replace]
      split
      · exact P.get?_insert_of_ne hne value
      · rfl
  | modify p f =>
      cases hop
      simp only [specify, Spec.modify]
      cases P.get? pair with
      | some old => exact P.get?_insert_of_ne hne (f old)
      | none => rfl
  | erase p => cases hop; exact P.get?_erase_of_ne hne
  | eraseIfValue p value =>
      cases hop
      simp only [specify, Spec.eraseIfValue]
      split
      · exact P.get?_erase_of_ne hne
      · rfl
  | computeIfAbsent p f =>
      cases hop
      simp only [specify, Spec.computeIfAbsent]
      cases P.get? pair with
      | some old => rfl
      | none =>
          -- a function that panics leaves everything
          refine Call.state_run (P := fun Q : FiniteMap (Int32 × Int32) ν => Q.get? other = P.get? other) rfl
            fun computed => ?_
          cases computed with
          | none => rfl
          | some value => exact P.get?_insert_of_ne hne value
  | computeIfPresent p f =>
      cases hop
      simp only [specify, Spec.computeIfPresent]
      cases P.get? pair with
      | some old => exact Spec.get?_run_settle hne (P.get?_insert_of_ne hne)
      | none => rfl
  | compute p f =>
      cases hop
      -- what is computed is put under the pair itself, or the pair is removed
      exact Spec.get?_run_settle hne (P.get?_put_of_ne hne)
  | merge p value f =>
      cases hop
      simp only [specify, Spec.merge]
      cases P.get? pair with
      | some old => exact Spec.get?_run_settle hne (P.get?_put_of_ne hne)
      | none => exact P.get?_put_of_ne hne value
  | _ => cases hop

/-! ### Every run -/

/-- A new map is empty. -/
theorem represents_of_ofConfig {config : TableConfig} (hm : ofConfig config = .ok m) :
    m.Represents within {} := by
  obtain ⟨inner, hinner, rfl⟩ := exists_of_map_eq_ok hm
  exact ValueMap.represents_of_ofConfig lawfulSlots hinner

theorem ofConfig_default : ofConfig {} = .ok (empty : PairMap ν) := by
  rw [ofConfig, ValueMap.ofConfig_default]
  rfl

/-- A call on a map keyed by pairs does what a call on a finite map from pairs does. -/
structure Matches (c : OperationCall ν) (d : SpecifiedCall ν) : Prop where
  result : c.result = d.result
  calls : c.calls = d.calls
  len : c.state.len = d.state.size
  distinct : d.state.Distinct
  entries : c.state.entries.Perm d.state.entries
  /-- The content hash is that of a map with the same entries, in any order. -/
  hashCode : ∀ [Digest] [ContentHash ν] {l : List ((Int32 × Int32) × ν)}, l.Perm d.state.entries →
    c.state.hashCode = mapContentHash l

/-- Calls that agree show the same to the caller. -/
theorem Represents.matches {c : OperationCall ν} {d : SpecifiedCall ν}
    (h : c.Agrees (Represents within) d) : Matches c d where
  result := h.result
  calls := h.calls
  len := h.state.len_eq
  distinct := h.state.distinct
  entries := h.state.entries_perm
  hashCode hl := mapContentHash_perm (h.state.entries_perm.trans hl.symm)

variable [BEq ν]

/-- **Every run of a map keyed by pairs is a run of a finite map from pairs**, as long as no insertion fails
to grow the table: pairs and words are one to one, and operations on one pair never affect another. -/
theorem run_refines_pairs {config : TableConfig} (hm : ofConfig config = .ok m)
    (ops : List (Operation ν)) (hno : NoOverflow (trace Operation.perform ops m)) :
    (∀ a b : Int32, splitKey (composeKey a b) = (a, b)) ∧
    (∀ key : Int64, composeKey (splitKey key).1 (splitKey key).2 = key) ∧
    (∃ calls, Runs Operation.Allows ops {} calls ∧
      List.Forall₂ Matches (trace Operation.perform ops m) calls) ∧
    ∀ (op : Operation ν) (pair : Int32 × Int32), op.pair? = some pair →
      (op.perform (finalState Operation.perform ops m)).result ≠ .error .capacityOverflow →
      ∀ other ≠ pair, (op.perform (finalState Operation.perform ops m)).state.get? other =
        (finalState Operation.perform ops m).get? other := by
  have hstart : m.Represents True {} := represents_of_ofConfig hm
  -- the invariant of a run is that the map stands for a finite map of pairs
  obtain ⟨⟨calls, hruns, hall⟩, P, hP⟩ :=
    exists_runs (fun op _ _ h => h.perform op) ops hstart hno
  refine ⟨splitKey_composeKey, composeKey_splitKey, ⟨calls, hruns, hall.imp fun c d h =>
    Represents.matches h⟩, ?_⟩
  intro op pair hop hserved other hother
  obtain ⟨d, ⟨order, -, rfl⟩, hagrees | ⟨hoverflow, -⟩⟩ := hP.perform op
  · rw [hagrees.state.get?_eq, hP.get?_eq]
    exact Operation.get?_specify hop order P hother
  · -- only a table that cannot grow leaves what is not specified
    exact absurd hoverflow hserved

/-- A run on pairs with negative components and with swapped ones, in which a function of the caller
panics. -/
theorem run_refines_pairs_negative :
    let ops : List (Operation Nat) :=
      [.insert (-1, 5) 1, .insert (5, -1) 2, .insert (0, -1) 3, .get? (-1, -1), .erase (-1, 5),
        .insertIfAbsent (-1, -1) 4, .compute (5, -1) fun _ old => .answers (old.map (· + 10)),
        .computeIfPresent (0, -1) fun _ _ => .panics, .merge (0, 5) 6 fun old new =>
          .answers (some (old + new)), .modify (0, 5) (· + 1), .eraseWhere fun pair _ =>
          .answers (pair.2 < 0), .compact, .contains (0, 5), .len]
    ofConfig {} = .ok (empty : PairMap Nat) ∧ NoOverflow (trace Operation.perform ops empty) ∧
      ((∀ a b : Int32, splitKey (composeKey a b) = (a, b)) ∧
      (∀ key : Int64, composeKey (splitKey key).1 (splitKey key).2 = key) ∧
      (∃ calls, Runs Operation.Allows ops {} calls ∧
        List.Forall₂ Matches (trace Operation.perform ops (empty : PairMap Nat)) calls) ∧
      ∀ (op : Operation Nat) (pair : Int32 × Int32), op.pair? = some pair →
        (op.perform (finalState Operation.perform ops empty)).result ≠ .error .capacityOverflow →
        ∀ other ≠ pair, (op.perform (finalState Operation.perform ops empty)).state.get? other =
          (finalState Operation.perform ops empty).get? other) := by
  intro ops
  have hno : NoOverflow (trace Operation.perform ops (empty : PairMap Nat)) := by decide +kernel
  exact ⟨ofConfig_default, hno, run_refines_pairs ofConfig_default ops hno⟩

end LinearProbing.PairMap
