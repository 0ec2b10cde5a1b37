import LinearProbing.Proofs.Tally.Counting
import LinearProbing.Proofs.WordMap.Refinement

/-!
# LinearProbing.Proofs.Tally.Refinement

**A tally refines a counting function.** Whatever is done to a new tally, every call gives the result that
it gives on a function which is the initial value everywhere at first, and runs the functions of the caller
with the same arguments; after every step the entries are the keys whose count differs from the initial
value.

The map of counts inside stands for a finite map (`WordMap.Represents`), and a finite map is read as a
function by giving the initial value for absent keys. So each operation on the map is one on the function
(`countsOf_update`), and the case in which a count comes back to the initial value, which removes the entry,
is no case of its own any more.
-/

namespace LinearProbing

/-! ### Finite maps as functions -/

namespace Tally

variable {κ ν : Type} [SignedWord κ] [SignedWord ν] {initial : ν} {within : Prop}
  {M : FiniteMap κ ν} {m : WordMap κ ν} {t : Tally κ ν} {f : κ → ν} {key : κ} {count : ν}

omit [SignedWord ν] in
/-- An entry sets the count of its key. -/
theorem countsOf_insert (M : FiniteMap κ ν) (key : κ) (count : ν) :
    countsOf initial (M.insert key count) = Spec.set (countsOf initial M) key count := by
  funext other
  rw [countsOf, WordMap.Spec.read, M.get?_insert, Spec.set, Function.update_apply]
  by_cases h : other = key
  · simp [h]
  · simp [h, Ne.symm h, WordMap.Spec.read]

omit [SignedWord ν] in
/-- Removing an entry sets the count of its key back. -/
theorem countsOf_erase (M : FiniteMap κ ν) (key : κ) :
    countsOf initial (M.erase key) = Spec.set (countsOf initial M) key initial := by
  funext other
  rw [countsOf, WordMap.Spec.read, M.get?_erase, Spec.set, Function.update_apply]
  by_cases h : other = key
  · simp [h]
  · simp [h, Ne.symm h, WordMap.Spec.read]

/-- **A computed count that is the initial value needs no case of its own.** -/
theorem countsOf_update (M : FiniteMap κ ν) (key : κ) (count : ν) :
    countsOf initial (WordMap.Spec.update initial M key count) = Spec.set (countsOf initial M) key count := by
  rw [WordMap.Spec.update]
  split
  · next h => rw [countsOf_erase, h]
  · exact countsOf_insert M key count

omit [SignedWord κ] [SignedWord ν] in
theorem Support.perm {l l' : List (κ × ν)} (h : Support initial f l) (hl : l.Perm l') :
    Support initial f l' :=
  ⟨(hl.map Prod.fst).nodup_iff.mp h.distinct, fun e => hl.mem_iff.symm.trans (h.mem_iff e)⟩

omit [SignedWord ν] in
/-- The entries of a finite map are the support of the function that it is read as. -/
theorem support_of_proper (h : M.Proper initial) : Support initial (countsOf initial M) M.entries where
  distinct := List.pairwise_map.mpr h.distinct
  mem_iff := by
    rintro ⟨key, count⟩
    have hdistinct : M.Distinct := h.distinct.imp beq_false_of_ne
    constructor
    · intro he
      refine ⟨?_, h.ne_missing _ he⟩
      rw [countsOf, WordMap.Spec.read, FiniteMap.get?_eq, hdistinct.find?_eq he]
      rfl
    · rintro ⟨hread, hne⟩
      rw [countsOf, WordMap.Spec.read, FiniteMap.get?_eq] at hread
      -- an absent key reads as the initial value, which no entry has
      cases hfind : M.find? key with
      | none =>
          rw [hfind] at hread
          exact absurd hread.symm hne
      | some e =>
          rw [hfind] at hread
          obtain rfl : e.2 = count := hread
          obtain rfl := eq_of_beq (FiniteMap.key_of_find? hfind)
          exact List.mem_of_find?_eq_some hfind

omit [SignedWord ν] in
/-- A key is absent if its count is the initial value. -/
theorem get?_eq_none_iff (h : M.Proper initial) :
    M.get? key = none ↔ countsOf initial M key = initial := by
  rw [countsOf, WordMap.Spec.read]
  constructor
  · intro hget
    rw [hget]
    rfl
  · intro hread
    cases hfind : M.find? key with
    | none => rw [FiniteMap.get?_eq, hfind, Option.map_none]
    | some e =>
        rw [FiniteMap.get?_eq, hfind] at hread
        exact absurd hread (h.ne_missing e (List.mem_of_find?_eq_some hfind))

omit [SignedWord ν] in
theorem get?_eq_some (h : M.Proper initial) (hread : countsOf initial M key ≠ initial) :
    M.get? key = some (countsOf initial M key) := by
  cases hget : M.get? key with
  | none => exact absurd ((get?_eq_none_iff h).mp hget) hread
  | some count => rw [countsOf, WordMap.Spec.read, hget, Option.getD_some]

/-! ### Computing on functions -/

/-- A new entry, a changed one and a removed one all set the count. -/
theorem within_compute (M : FiniteMap κ ν) (key : κ) (g : κ → ν → Reply ν) :
    (WordMap.Spec.compute initial M key g).within (countsOf initial) =
      Spec.compute (countsOf initial M) key g := by
  rw [WordMap.Spec.compute, Call.within_run, Spec.compute]
  simp only [Change.within, Change.done, countsOf_update]

/-- A key is absent exactly if its count is the initial value, so the function is asked alike. -/
theorem within_computeIfAbsent (h : M.Proper initial) (key : κ) (g : κ → Reply ν) :
    (WordMap.Spec.computeIfAbsent initial M key g).within (countsOf initial) =
      Spec.computeIfAbsent initial (countsOf initial M) key g := by
  rw [WordMap.Spec.computeIfAbsent, Spec.computeIfAbsent]
  by_cases hread : countsOf initial M key = initial
  · rw [(get?_eq_none_iff h).mpr hread, if_pos hread]
    dsimp only
    rw [Call.within_run]
    simp only [Change.within, Change.done, countsOf_update]
  · rw [get?_eq_some h hread, if_neg hread]
    rfl

/-- A key is present exactly if its count differs from the initial value. -/
theorem within_computeIfPresent (h : M.Proper initial) (key : κ) (g : κ → ν → Reply ν) :
    (WordMap.Spec.computeIfPresent initial M key g).within (countsOf initial) =
      Spec.computeIfPresent initial (countsOf initial M) key g := by
  rw [WordMap.Spec.computeIfPresent, Spec.computeIfPresent]
  by_cases hread : countsOf initial M key = initial
  · rw [(get?_eq_none_iff h).mpr hread, if_pos hread]
    rfl
  · rw [get?_eq_some h hread, if_neg hread, Spec.compute]
    dsimp only
    rw [Call.within_run]
    simp only [Change.within, Change.done, countsOf_update]

/-! ### Extreme counts -/

/-- What a choice between two picks from a list is a member of it, before all others. -/
theorem foldl_picks {α : Type} {pick : α → α → α} (before : α → α → Prop)
    (hrefl : ∀ x, before x x) (htrans : ∀ x y z, before x y → before y z → before x z)
    (hpick : ∀ x y, (pick x y = x ∨ pick x y = y) ∧ before (pick x y) x ∧ before (pick x y) y)
    (rest : List α) (x : α) :
    rest.foldl pick x ∈ x :: rest ∧ ∀ y ∈ x :: rest, before (rest.foldl pick x) y := by
  -- the pick so far is carried along: it comes before all that was seen
  induction rest generalizing x with
  | nil => simp [hrefl]
  | cons y rest ih =>
      obtain ⟨hmem, hbefore⟩ := ih (pick x y)
      obtain ⟨hone, hx, hy⟩ := hpick x y
      have hfirst := hbefore _ List.mem_cons_self
      rw [List.foldl_cons]
      refine ⟨?_, ?_⟩
      · rcases List.mem_cons.mp hmem with heq | hrest
        · rw [heq]
          rcases hone with h | h <;> simp [h]
        · simp [hrest]
      · -- the first, the second, and any later one
        rintro z (_ | ⟨_, _ | ⟨_, hz⟩⟩)
        · exact htrans _ _ _ hfirst hx
        · exact htrans _ _ _ hfirst hy
        · exact hbefore z (List.mem_cons_of_mem _ hz)

omit [SignedWord κ] in
/-- What is picked from the counts in a support is an extreme count. -/
theorem Support.extreme {l : List (κ × ν)} (h : Support initial f l) (before : Int → Int → Prop)
    {pick : ν → ν → ν} (hrefl : ∀ i, before i i)
    (htrans : ∀ i j k, before i j → before j k → before i k)
    (hpick : ∀ x y, (pick x y = x ∨ pick x y = y) ∧
      before (SignedWord.toInt (pick x y)) (SignedWord.toInt x) ∧
        before (SignedWord.toInt (pick x y)) (SignedWord.toInt y)) :
    Extreme before initial f
      (match l.map Prod.snd with
        | [] => initial
        | x :: rest => rest.foldl pick x) := by
  have hmem : ∀ count, count ∈ l.map Prod.snd ↔ (∃ key, f key = count) ∧ count ≠ initial := by
    intro count
    rw [List.mem_map]
    constructor
    · rintro ⟨e, he, rfl⟩
      obtain ⟨hcount, hne⟩ := (h.mem_iff e).mp he
      exact ⟨⟨e.1, hcount⟩, hne⟩
    · rintro ⟨⟨key, hcount⟩, hne⟩
      exact ⟨(key, count), (h.mem_iff _).mpr ⟨hcount, hne⟩, rfl⟩
  -- without entries all counts are the initial value
  cases hcounts : l.map Prod.snd with
  | nil =>
      refine Or.inl ⟨fun key => ?_, rfl⟩
      by_contra hne
      have := (hmem (f key)).mpr ⟨⟨key, rfl⟩, hne⟩
      rw [hcounts] at this
      exact absurd this List.not_mem_nil
  | cons x rest =>
      -- the fold over the counts of entries never meets the initial value
      obtain ⟨hone, hall⟩ :=
        foldl_picks (fun x y => before (SignedWord.toInt x) (SignedWord.toInt y)) (fun _ => hrefl _)
          (fun _ _ _ => htrans _ _ _) hpick rest x
      rw [hcounts] at hmem
      obtain ⟨hkey, hne⟩ := (hmem _).mp hone
      exact Or.inr ⟨hkey, hne, fun key hdiffers => hall _ ((hmem _).mpr ⟨⟨key, rfl⟩, hdiffers⟩)⟩

/-- The lesser of two counts is one of them, and not above either. -/
theorem lesser_picks (x y : ν) : (lesser x y = x ∨ lesser x y = y) ∧
    SignedWord.toInt (lesser x y) ≤ SignedWord.toInt x ∧
      SignedWord.toInt (lesser x y) ≤ SignedWord.toInt y := by
  unfold lesser
  split
  · next h => exact ⟨.inr rfl, h.le, le_rfl⟩
  · next h => exact ⟨.inl rfl, le_rfl, not_lt.mp h⟩

/-- The greater of two counts is one of them, and not below either. -/
theorem greater_picks (x y : ν) : (greater x y = x ∨ greater x y = y) ∧
    SignedWord.toInt (greater x y) ≥ SignedWord.toInt x ∧
      SignedWord.toInt (greater x y) ≥ SignedWord.toInt y := by
  unfold greater
  split
  · next h => exact ⟨.inr rfl, h.le, le_rfl⟩
  · next h => exact ⟨.inl rfl, le_rfl, not_lt.mp h⟩

/-! ### What a tally stands for -/

/-- A usable tally with the counts of a function. -/
def Represents (initial : ν) (within : Prop) (t : Tally κ ν) (f : κ → ν) : Prop :=
  ∃ M, t.counts.Represents initial within M ∧ f = countsOf initial M

/-- A tally whose table holds too many entries. -/
def Overfull (initial : ν) (within : Prop) (t : Tally κ ν) : Prop := t.counts.Overfull initial within

/-- A change of a tally does what is specified of it. -/
abbrev Changes (initial : ν) (within : Prop) {α : Type} (c : Change (Tally κ ν) α)
    (d : Change (κ → ν) α) : Prop :=
  c.Tracks (Represents initial within) (Overfull initial within) d

/-- A call on a tally does what is specified of it. -/
abbrev Calls (initial : ν) (within : Prop) {γ α : Type} (c : Call (Tally κ ν) γ α)
    (d : Call (κ → ν) γ α) : Prop :=
  c.Tracks (Represents initial within) (Overfull initial within) d

/-- A tally stands for the counts that its map gives. -/
theorem represents_mk (h : m.Represents initial within M) :
    (⟨m⟩ : Tally κ ν).Represents initial within (countsOf initial M) := ⟨M, h, rfl⟩

/-- What the map of counts does, the tally does. -/
theorem calls_within {γ α : Type} {c : Call (WordMap κ ν) γ α} {d : Call (FiniteMap κ ν) γ α}
    (h : WordMap.Calls initial within c d) :
    Calls initial within (c.within Tally.mk) (d.within (countsOf initial)) :=
  h.within (fun _ _ => represents_mk) fun _ h => h

/-- What is specified of the map of counts is specified of the tally. -/
theorem changes_within {α : Type} {c : Change (WordMap κ ν) α} {d : Change (FiniteMap κ ν) α}
    (h : WordMap.Changes initial within c d) :
    Changes initial within (c.within Tally.mk) (d.within (countsOf initial)) :=
  h.within (fun _ _ => represents_mk) fun _ h => h

theorem Represents.initial_eq (h : t.Represents initial within f) : t.initial = initial := by
  obtain ⟨M, hM, -⟩ := h
  exact hM.missing_eq

/-- The entries are the counts that differ from the initial value. -/
theorem Represents.support (h : t.Represents initial within f) : Support initial f t.entries := by
  obtain ⟨M, hM, rfl⟩ := h
  exact (support_of_proper hM.proper).perm hM.entries_perm.symm

theorem Represents.len_eq (h : t.Represents initial within f) : t.len = t.entries.length := by
  obtain ⟨M, hM, -⟩ := h
  exact hM.table.len_eq_length.trans hM.entries_perm.length_eq.symm

/-- The count of an absent key is the initial value. -/
theorem Represents.get_eq (h : t.Represents initial within f) (key : κ) : t.get key = f key := by
  obtain ⟨M, hM, rfl⟩ := h
  rw [Tally.get, WordMap.get, WordMap.getD, hM.get?_eq, hM.missing_eq]
  rfl

/-- The keys that are present are those whose count differs from the initial value. -/
theorem Represents.contains_eq (h : t.Represents initial within f) (key : κ) :
    t.contains key = decide (f key ≠ initial) := by
  obtain ⟨M, hM, rfl⟩ := h
  rw [Tally.contains, WordMap.contains, hM.get?_eq]
  by_cases hread : countsOf initial M key = initial
  · rw [(get?_eq_none_iff hM.proper).mpr hread, hread]
    simp
  · rw [get?_eq_some hM.proper hread, decide_eq_true hread]
    rfl

/-- The least count is taken over the entries only. -/
theorem Represents.minimum (h : t.Represents initial within f) :
    Extreme (· ≤ ·) initial f t.minimum := by
  have hextreme := h.support.extreme (· ≤ ·) le_refl (fun _ _ _ => le_trans) lesser_picks
  rw [← h.initial_eq] at hextreme ⊢
  exact hextreme

/-- The greatest count is taken over the entries only. -/
theorem Represents.maximum (h : t.Represents initial within f) :
    Extreme (· ≥ ·) initial f t.maximum := by
  have hextreme := h.support.extreme (· ≥ ·) le_refl (fun _ _ _ => ge_trans) greater_picks
  rw [← h.initial_eq] at hextreme ⊢
  exact hextreme

/-! ### What is observed of a tally -/

/-- A tally gives the counts of a function, and its entries are the keys whose count differs from the
initial value. -/
structure Counts (initial : ν) (t : Tally κ ν) (f : κ → ν) : Prop where
  initial_eq : t.initial = initial
  get_eq : ∀ key, t.get key = f key
  support : Support initial f t.entries
  len_eq : t.len = t.entries.length
  contains_eq : ∀ key, t.contains key = decide (f key ≠ initial)
  minimum : Extreme (· ≤ ·) initial f t.minimum
  maximum : Extreme (· ≥ ·) initial f t.maximum

theorem Represents.counts (h : t.Represents initial within f) : Counts initial t f where
  initial_eq := h.initial_eq
  get_eq := h.get_eq
  support := h.support
  len_eq := h.len_eq
  contains_eq := h.contains_eq
  minimum := h.minimum
  maximum := h.maximum

/-! ### Changing counts -/

theorem Represents.erase (h : t.Represents initial within f) (key : κ) :
    (t.erase key).1 = f key ∧ (t.erase key).2.Represents initial within (Spec.set f key initial) := by
  obtain ⟨M, hM, rfl⟩ := h
  obtain ⟨hold, hstate⟩ := hM.erase? key
  rw [← countsOf_erase]
  refine ⟨?_, represents_mk hstate⟩
  change ((t.counts.erase? key).1.getD t.counts.missing) = _
  rw [hold, hM.missing_eq]
  rfl

/-- **Setting a count** gives back the former one, and keeps no entry for the initial value. -/
theorem Represents.set (h : t.Represents initial within f) (key : κ) (count : ν) :
    Changes initial within (t.set key count) (.done (Spec.set f key count) (f key)) := by
  have herase := h.erase key
  rw [Changes, Tally.set, h.initial_eq]
  by_cases hcount : count = initial
  · obtain ⟨hold, hstate⟩ := herase
    rw [if_pos hcount, hcount, ← hold]
    exact .done hstate _
  · obtain ⟨M, hM, rfl⟩ := h
    rw [if_neg hcount, ← countsOf_insert]
    exact changes_within (hM.store hcount)

/-- A function computes the count of a key from the current one. -/
theorem Represents.compute (h : t.Represents initial within f) (key : κ) (g : κ → ν → Reply ν) :
    Calls initial within (t.compute key g) (Spec.compute f key g) := by
  obtain ⟨M, hM, rfl⟩ := h
  rw [← within_compute]
  exact calls_within hM.compute

/-- A function computes the count of a key that has the initial value. -/
theorem Represents.computeIfAbsent (h : t.Represents initial within f) (key : κ) (g : κ → Reply ν) :
    Calls initial within (t.computeIfAbsent key g) (Spec.computeIfAbsent initial f key g) := by
  obtain ⟨M, hM, rfl⟩ := h
  rw [← within_computeIfAbsent hM.proper]
  exact calls_within hM.computeIfAbsent

/-- A function computes the count of a key that differs from the initial value. -/
theorem Represents.computeIfPresent (h : t.Represents initial within f) (key : κ)
    (g : κ → ν → Reply ν) :
    Calls initial within (t.computeIfPresent key g) (Spec.computeIfPresent initial f key g) := by
  obtain ⟨M, hM, rfl⟩ := h
  rw [← within_computeIfPresent hM.proper]
  exact calls_within hM.computeIfPresent

/-! ### New tallies -/

/-- A new tally counts from the initial value on. -/
theorem represents_of_ofConfig {config : TableConfig} (ht : ofConfig config initial = .ok t) :
    t.Represents initial within fun _ => initial := by
  obtain ⟨m, hm, rfl⟩ := exists_of_map_eq_ok ht
  exact represents_mk (WordMap.represents_of_ofConfig hm)

theorem ofConfig_default (initial : ν) : ofConfig {} initial = .ok (empty initial : Tally κ ν) := by
  rw [ofConfig, WordMap.ofConfig_default]
  rfl

variable [LawfulSignedWord ν]

/-- Adding nothing changes nothing: no computation is needed for it. -/
theorem Represents.add (h : t.Represents initial within f) (key : κ) (amount : ν) :
    Changes initial within (t.add key amount) (Spec.add f key (SignedWord.toInt amount)) := by
  rw [Changes, Tally.add, h.get_eq]
  dsimp only
  -- adding nothing does not even search for the key
  by_cases hamount : amount = SignedWord.zero
  · rw [if_pos hamount, hamount, Spec.add, SignedWord.toInt_zero, SignedWord.plus_zero, Spec.set,
      Function.update_eq_self]
    exact .done h _
  · rw [if_neg hamount]
    have hspec : Spec.add f key (SignedWord.toInt amount) =
        .done (Spec.set f key (SignedWord.wrappingAdd (f key) amount))
          (f key, SignedWord.wrappingAdd (f key) amount) := by
      rw [SignedWord.wrappingAdd_eq_plus]
      rfl
    rw [hspec]
    exact (h.compute key fun _ count =>
      .answers (SignedWord.wrappingAdd count amount)).toChange.map fun new => (f key, new)

/-- A step is the addition of a word that stands for it. -/
theorem Represents.addStep (h : t.Represents initial within f) (key : κ) (step : Int) :
    Changes initial within (t.add key (SignedWord.ofInt step)) (Spec.add f key step) := by
  have hadd := h.add key (SignedWord.ofInt step)
  rwa [Spec.add, SignedWord.plus_toInt_ofInt] at hadd

/-- The step down is the addition of minus one. -/
theorem Represents.addDown (h : t.Represents initial within f) (key : κ) :
    Changes initial within (t.add key down) (Spec.add f key (-1)) := by
  rw [down, SignedWord.wrappingSub_zero_one]
  exact h.addStep key (-1)

/-! ### All operations -/

omit [LawfulSignedWord ν] in
/-- Every search in the map of counts ends. -/
theorem Represents.endless_notMem (h : t.Represents initial within f) (key : κ) :
    Probe.endless ∉ [t.counts.locate key] := by
  obtain ⟨M, hM, -⟩ := h
  exact hM.endless_notMem key

omit [LawfulSignedWord ν] in
/-- No search in front of an operation is without end. -/
theorem Represents.searching (h : t.Represents initial within f) {c : WordMap.OperationCall (Tally κ ν) κ ν}
    {d : WordMap.OperationCall (κ → ν) κ ν} (hcall : Calls initial within c d) :
    Calls initial within (.searching [t.counts.locate key] t c) d := by
  rwa [Call.searching_of_notMem (h.endless_notMem key)]

/-- **Every operation does what is specified of it.** -/
theorem Represents.perform (h : t.Represents initial within f) (op : Operation κ ν) :
    ∃ d, op.Allows initial f d ∧ Calls initial within (op.perform t) d := by
  -- the invariant is that the map of counts stands for a finite map without missing values. Every operation
  -- is one on that map, read through its counts
  cases op with
  | get key =>
      refine ⟨_, rfl, ?_⟩
      rw [Operation.perform, Call.searching_of_notMem (h.endless_notMem key), h.get_eq]
      exact .done h _
  | contains key =>
      refine ⟨_, rfl, ?_⟩
      rw [Operation.perform, Call.searching_of_notMem (h.endless_notMem key), h.contains_eq]
      exact .done h _
  | len =>
      refine ⟨_, ⟨t.entries, h.support, rfl⟩, ?_⟩
      rw [Operation.perform, h.len_eq]
      exact .done h _
  -- extreme counts need only be extreme, whichever entry they are read from
  | minimum => exact ⟨_, ⟨t.minimum, h.minimum, rfl⟩, .done h _⟩
  | maximum => exact ⟨_, ⟨t.maximum, h.maximum, rfl⟩, .done h _⟩
  | set key count => exact ⟨_, rfl, h.searching <| .quiet ((h.set key count).map _)⟩
  | erase key =>
      -- removing a key sets its count back to the initial value
      obtain ⟨hold, hstate⟩ := h.erase key
      refine ⟨_, rfl, ?_⟩
      rw [Operation.perform, Call.searching_of_notMem (h.endless_notMem key), hold]
      exact .done hstate _
  | addAndGet key amount => exact ⟨_, rfl, h.searching <| .quiet (((h.add key amount).map _).map _)⟩
  | getAndAdd key amount => exact ⟨_, rfl, h.searching <| .quiet (((h.add key amount).map _).map _)⟩
  | incrementAndGet key => exact ⟨_, rfl, h.searching <| .quiet (((h.addStep key 1).map _).map _)⟩
  | decrementAndGet key => exact ⟨_, rfl, h.searching <| .quiet (((h.addDown key).map _).map _)⟩
  | getAndIncrement key => exact ⟨_, rfl, h.searching <| .quiet (((h.addStep key 1).map _).map _)⟩
  | getAndDecrement key => exact ⟨_, rfl, h.searching <| .quiet (((h.addDown key).map _).map _)⟩
  | computeIfAbsent key g => exact ⟨_, rfl, ((h.computeIfAbsent key g).mapCalls _).map _⟩
  | computeIfPresent key g => exact ⟨_, rfl, ((h.computeIfPresent key g).mapCalls _).map _⟩
  | compute key g => exact ⟨_, rfl, ((h.compute key g).mapCalls _).map _⟩
  | eraseWhere selects =>
      obtain ⟨M, hM, rfl⟩ := h
      -- the sweep passes the support in the order of a scan
      have horder := (support_of_proper hM.proper).perm hM.scanOrder_perm.symm
      refine ⟨_, ⟨t.counts.scanOrder, horder, rfl⟩, ?_⟩
      exact ((calls_within (.inl (hM.eraseWhere selects))).mapCalls _).map _
  | forEach g =>
      refine ⟨_, ⟨t.entries, h.support, rfl⟩, ?_⟩
      -- showing the entries of the map of counts is showing those of the tally
      have hshown : t.forEach g = .forEach (fun e => g e.1 e.2) t t.entries := Call.within_forEach Tally.mk ..
      rw [Operation.perform, hshown]
      exact .inl (((Call.Agrees.forEach h _ _).mapCalls _).map _)
  | clear =>
      obtain ⟨M, hM, rfl⟩ := h
      exact ⟨_, rfl, .done (represents_mk hM.clear) _⟩
  | compact =>
      obtain ⟨M, hM, rfl⟩ := h
      exact ⟨_, rfl, .quiet ((changes_within hM.compact).map _)⟩

/-! ### Every run -/

/-- **Every run of a tally is a run of a counting function**, as long as no insertion fails to grow the
table. Adding nothing is no insertion. -/
theorem run_refines_counting {config : TableConfig} (ht : ofConfig config initial = .ok t)
    (ops : List (Operation κ ν)) (hno : NoOverflow (trace Operation.perform ops t)) :
    (∃ calls, Runs (Operation.Allows initial) ops (fun _ => initial) calls ∧
      List.Forall₂
        (fun c d => c.result = d.result ∧ c.calls = d.calls ∧ Counts initial c.state d.state)
        (trace Operation.perform ops t) calls) ∧
    ∀ (u : Tally κ ν) (key : κ), u.addAndGet key SignedWord.zero = .done u (u.get key) ∧
      u.getAndAdd key SignedWord.zero = .done u (u.get key) := by
  have hstart : t.Represents initial True fun _ => initial := represents_of_ofConfig ht
  obtain ⟨⟨calls, hruns, hall⟩, -⟩ := exists_runs (fun op _ _ h => h.perform op) ops hstart hno
  refine ⟨⟨calls, hruns, hall.imp fun c d h => ⟨h.result, h.calls, h.state.counts⟩⟩, ?_⟩
  intro u key
  simp only [addAndGet, getAndAdd, add, if_pos]
  exact ⟨rfl, rfl⟩

/-- A run in which a count wraps around to the initial value, which is the least word, and a function of the
caller panics. -/
theorem run_refines_counting_wrapping :
    let initial : Int32 := -2147483648
    let ops : List (Operation Int32 Int32) :=
      [.addAndGet 1 0, .set 1 2147483647, .set (-5) 7, .getAndIncrement 1, .contains 1, .len,
        .decrementAndGet 2, .maximum, .getAndAdd 2 (-3), .computeIfAbsent 3 fun _ => .panics,
        .compute (-5) fun _ count => .answers (count + 1), .minimum,
        .eraseWhere fun _ count => .answers (count > 0), .compact, .get (-5), .erase 2, .minimum]
    ofConfig {} initial = .ok (empty initial : Tally Int32 Int32) ∧
      NoOverflow (trace Operation.perform ops (empty initial)) ∧
        ((∃ calls, Runs (Operation.Allows initial) ops (fun _ => initial) calls ∧
          List.Forall₂
            (fun c d => c.result = d.result ∧ c.calls = d.calls ∧ Counts initial c.state d.state)
            (trace Operation.perform ops (empty initial)) calls) ∧
        ∀ (u : Tally Int32 Int32) (key : Int32),
          u.addAndGet key SignedWord.zero = .done u (u.get key) ∧
            u.getAndAdd key SignedWord.zero = .done u (u.get key)) := by
  intro initial ops
  have ht : ofConfig {} initial = .ok (empty initial : Tally Int32 Int32) := ofConfig_default _
  have hno : NoOverflow (trace Operation.perform ops (empty initial)) := by decide +kernel
  exact ⟨ht, hno, run_refines_counting ht ops hno⟩

end Tally

end LinearProbing
