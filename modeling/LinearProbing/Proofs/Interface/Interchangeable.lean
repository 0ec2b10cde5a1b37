import LinearProbing.Hash.Choice
import LinearProbing.Proofs.FiniteMap.Image
import LinearProbing.Proofs.Interface.Operation
import LinearProbing.Proofs.Overflow
import LinearProbing.Proofs.WordMap.Refinement

/-!
# LinearProbing.Proofs.Interface.Interchangeable

**Containers are interchangeable behind their interface.** Whatever a program does to a map through
`MapInterface`, it sees what it would see of a plain finite map, whether the map holds words beside a missing
value, words with values that may be null, or keys under any lawful hasher; and so with sets. The one
difference is that a map of words refuses to store its missing value, and is left as it was; without such
insertions there is none.

A kind of container does so if every single function of the interface does the same to a container and to the
finite map or set that it stands for (`MapInterface.ActsAs`, `SetInterface.ActsAs`). What was shown of each
kind gives this.
-/

namespace LinearProbing

/-! ### Maps behind their interface -/

namespace MapInterface

variable {μ κ ν : Type} [MapInterface μ κ ν] [BEq κ]

/-- Every function of the interface does the same to a map and to a finite map, but that some values are
refused. -/
structure ActsAs (refusal? : ν → Option TableError) (R : μ → FiniteMap κ ν → Prop) (broken : μ → Prop)
    (m : μ) (M : FiniteMap κ ν) : Prop where
  distinct : M.Distinct
  len_eq : len m = M.size
  contains_eq : ∀ key, contains m key = M.contains key
  get?_eq : ∀ key, get? m key = M.get? key
  insert : ∀ key value, refusal? value = none →
    (insert m key value).Tracks R broken (.done (M.insert key value) (M.get? key))
  /-- A refusal leaves the map as it was. -/
  insert_refused : ∀ key value error, refusal? value = some error →
    MapInterface.insert m key value = .fail m (.refused error)
  erase : ∀ key, (erase m key).1 = M.get? key ∧ R (MapInterface.erase m key).2 (M.erase key)
  clear : R (clear m) {}
  visit : (visit m).Perm M.entries

namespace Operation

variable {refusal? : ν → Option TableError} {op : Operation κ ν} {ops : List (Operation κ ν)}
  {error : TableError}

omit [MapInterface μ κ ν] in
theorem refusing_of_some (h : op.stores?.bind refusal? = some error) (M : FiniteMap κ ν) :
    op.refusing refusal? M = .fail M (.refused error) := by
  rw [refusing, h]

omit [MapInterface μ κ ν] in
theorem refusing_of_none (h : op.stores?.bind refusal? = none) (M : FiniteMap κ ν) :
    op.refusing refusal? M = op.perform M := by
  rw [refusing, h]

omit [MapInterface μ κ ν] in
/-- Where nothing is refused, a finite map that refuses values is a plain one. -/
theorem trace_refusing (h : ∀ op ∈ ops, op.stores?.bind refusal? = none) (M : FiniteMap κ ν) :
    trace (refusing refusal?) ops M = trace perform ops M := by
  induction ops generalizing M with
  | nil => rfl
  | cons op rest ih =>
      obtain ⟨hfirst, hrest⟩ := List.forall_mem_cons.mp h
      rw [trace, trace, refusing_of_none hfirst, ih hrest]

end Operation

namespace ActsAs

variable [EquivBEq κ] {refusal? : ν → Option TableError} {R : μ → FiniteMap κ ν → Prop} {broken : μ → Prop}
  {m : μ} {M : FiniteMap κ ν}

omit [EquivBEq κ] in
/-- A refused operation leaves the map as it was. -/
theorem perform_of_some (h : ActsAs refusal? R broken m M) {op : Operation κ ν} {error : TableError}
    (hrefused : op.stores?.bind refusal? = some error) : op.perform m = .fail m (.refused error) := by
  cases op with
  | insert key value =>
      rw [Operation.perform, h.insert_refused key value error hrefused]
      rfl
  | _ => cases hrefused

/-- Operations that are not refused look as they do on a finite map. -/
theorem perform_of_none (h : ActsAs refusal? R broken m M) (hR : R m M) {op : Operation κ ν}
    (hheld : op.stores?.bind refusal? = none) :
    (op.perform m).Resembles OtherKey R (op.perform M) ∨
      (op.perform m).result = .error .capacityOverflow := by
  -- queries leave both sides as they are; only an insertion can overflow
  cases op with
  | len =>
      refine .inl ⟨?_, hR⟩
      rw [Operation.perform, h.len_eq]
      exact .ok (.count _)
  | isEmpty =>
      refine .inl ⟨?_, hR⟩
      rw [Operation.perform, isEmpty, h.len_eq]
      exact .ok (.flag _)
  | contains key =>
      refine .inl ⟨?_, hR⟩
      rw [Operation.perform, h.contains_eq]
      exact .ok (.flag _)
  | get? key =>
      refine .inl ⟨?_, hR⟩
      rw [Operation.perform, h.get?_eq]
      exact .ok (.value? _)
  | insert key value =>
      refine (h.insert key value hheld).imp (fun hagrees => ⟨?_, hagrees.state⟩) fun hoverflow => ?_
      · show EndsAlike OtherKey ((MapInterface.insert m key value).result.map .value?) _
        rw [hagrees.result]
        exact .ok (.value? _)
      · exact congrArg (Except.map Observation.value?) hoverflow.1
  | erase key =>
      obtain ⟨hold, hstate⟩ := h.erase key
      refine .inl ⟨?_, hstate⟩
      rw [Operation.perform, hold]
      exact .ok (.value? _)
  | clear => exact .inl ⟨.ok .nothing, h.clear⟩
  | visit =>
      -- visiting enumerates the entries in some order, each once
      have honce : (MapInterface.visit m).Pairwise OtherKey :=
        (h.visit.pairwise_iff OtherKey.symm).mpr h.distinct
      exact .inl ⟨.ok (.visited h.visit honce), hR⟩

/-- Nothing else is refused. -/
theorem bind_ne_none_of_refused (h : ActsAs refusal? R broken m M) (hR : R m M) {op : Operation κ ν}
    {error : TableError} (hresult : (op.perform m).result = .error (.refused error)) :
    op.stores?.bind refusal? ≠ none := by
  intro hheld
  obtain ⟨a, ha⟩ : ∃ a, (op.perform M).result = .ok a := by cases op <;> exact ⟨_, rfl⟩
  rcases h.perform_of_none hR hheld with hresembles | hoverflow
  · have hends := hresembles.ends
    rw [hresult, ha] at hends
    cases hends
  · rw [hresult] at hoverflow
    cases hoverflow

/-- One operation, refused or not, looks as it does on a finite map that refuses the same. -/
theorem perform_resembles (h : ActsAs refusal? R broken m M) (hR : R m M) (op : Operation κ ν)
    (hserved : (op.perform m).result ≠ .error .capacityOverflow) :
    (op.perform m).Resembles OtherKey R (op.refusing refusal? M) := by
  cases hop : op.stores?.bind refusal? with
  | some error =>
      rw [h.perform_of_some hop, Operation.refusing_of_some hop]
      exact ⟨.error _, hR⟩
  | none =>
      rw [Operation.refusing_of_none hop]
      exact (h.perform_of_none hR hop).resolve_right hserved

end ActsAs

section Runs

variable [EquivBEq κ] {refusal? : ν → Option TableError} {R : μ → FiniteMap κ ν → Prop} {broken : μ → Prop}
  (hacts : ∀ {m M}, R m M → ActsAs refusal? R broken m M) {m : μ} {M : FiniteMap κ ν} (hR : R m M)
  (ops : List (Operation κ ν)) (hno : NoOverflow (trace Operation.perform ops m))

include hacts hR hno

/-- A run looks as it does on a finite map that refuses the same values. -/
theorem run_refusing :
    RunsAlike OtherKey (trace Operation.perform ops m) (trace (Operation.refusing refusal?) ops M) ∧
      R (finalState Operation.perform ops m) (finalState (Operation.refusing refusal?) ops M) :=
  runsAlike_of_resembles (R := R) (fun op _ _ h => (hacts h).perform_resembles h op) ops hR hno

/-- Operations that are refused may as well be left out. -/
theorem run_kept {keeps : Operation κ ν → Bool}
    (hkeeps : ∀ op, keeps op = true ↔ op.stores?.bind refusal? = none) :
    (trace Operation.perform (ops.filter keeps) m).Sublist (trace Operation.perform ops m) ∧
      finalState Operation.perform (ops.filter keeps) m = finalState Operation.perform ops m := by
  induction ops generalizing m M with
  | nil => exact ⟨.slnil, rfl⟩
  | cons op rest ih =>
      obtain ⟨hserved, hrest⟩ := List.forall_mem_cons.mp hno
      have hstate := ((hacts hR).perform_resembles hR op hserved).state
      obtain ⟨hsub, hfinal⟩ := ih hstate hrest
      cases hop : op.stores?.bind refusal? with
      | none =>
          rw [List.filter_cons_of_pos ((hkeeps op).mpr hop)]
          exact ⟨hsub.cons_cons _, hfinal⟩
      | some error =>
          -- the refused operation has left the map as it was
          have hsame : (op.perform m).state = m := by rw [(hacts hR).perform_of_some hop]; rfl
          rw [hsame] at hsub hfinal
          rw [List.filter_cons_of_neg (by simp [hkeeps, hop]), trace, finalState, hsame]
          exact ⟨hsub.cons _, hfinal⟩

end Runs

end MapInterface

/-! ### Sets behind their interface -/

namespace SetInterface

variable {μ α : Type} [SetInterface μ α] [BEq α]

/-- Every function of the interface does the same to a set and to a finite set. -/
structure ActsAs (R : μ → FiniteSet α → Prop) (broken : μ → Prop) (s : μ) (S : FiniteSet α) : Prop where
  distinct : S.Distinct
  len_eq : len s = S.size
  contains_eq : ∀ x, contains s x = S.contains x
  insert : ∀ x, (insert s x).Tracks R broken (.done (S.insert x) (! S.contains x))
  erase : ∀ x, (erase s x).1 = S.contains x ∧ R (SetInterface.erase s x).2 (S.erase x)
  visit : (visit s).Perm S.members

variable [EquivBEq α] {R : μ → FiniteSet α → Prop} {broken : μ → Prop} {s : μ} {S : FiniteSet α}

/-- One operation looks as it does on a finite set. -/
theorem ActsAs.perform_resembles (h : ActsAs R broken s S) (hR : R s S) (op : Operation α)
    (hserved : (op.perform s).result ≠ .error .capacityOverflow) :
    (op.perform s).Resembles Other R (op.perform S) := by
  -- as for maps: queries leave both sides, and only an insertion can overflow
  cases op with
  | len =>
      refine ⟨?_, hR⟩
      rw [Operation.perform, h.len_eq]
      exact .ok (.count _)
  | isEmpty =>
      refine ⟨?_, hR⟩
      rw [Operation.perform, isEmpty, h.len_eq]
      exact .ok (.flag _)
  | contains x =>
      refine ⟨?_, hR⟩
      rw [Operation.perform, h.contains_eq]
      exact .ok (.flag _)
  | insert x =>
      rcases h.insert x with hagrees | ⟨hoverflow, -⟩
      · refine ⟨?_, hagrees.state⟩
        show EndsAlike Other ((SetInterface.insert s x).result.map .flag) _
        rw [hagrees.result]
        exact .ok (.flag _)
      · exact absurd (congrArg (Except.map Observation.flag) hoverflow) hserved
  | erase x =>
      obtain ⟨hfound, hstate⟩ := h.erase x
      refine ⟨?_, hstate⟩
      rw [Operation.perform, hfound]
      exact .ok (.flag _)
  | visit =>
      have honce : (SetInterface.visit s).Pairwise Other :=
        (h.visit.pairwise_iff Other.symm).mpr h.distinct
      exact ⟨.ok (.visited h.visit honce), hR⟩

theorem run_finiteSet (hacts : ∀ {s S}, R s S → ActsAs R broken s S) (hR : R s S)
    (ops : List (Operation α)) (hno : NoOverflow (trace Operation.perform ops s)) :
    RunsAlike Other (trace Operation.perform ops s) (trace Operation.perform ops S) :=
  (runsAlike_of_resembles (R := R) (fun op _ _ h => (hacts h).perform_resembles h op) ops hR hno).1

end SetInterface

/-! ### The maps of the library -/

namespace WordMap

variable {κ ν : Type} [SignedWord κ] [SignedWord ν] {missing : ν} {within : Prop} {m : WordMap κ ν}
  {M : FiniteMap κ ν}

/-- The missing value is refused. -/
def Spec.refusal? (missing value : ν) : Option TableError :=
  if value = missing then some (refusal missing) else none

/-- Read through the interface, the missing value is no value. -/
theorem Represents.value?_read (h : m.Represents missing within M) (key : κ) :
    (if Spec.read missing M key = m.missing then none else some (Spec.read missing M key)) =
      M.get? key := by
  rw [h.missing_eq, Spec.read]
  cases hget : M.get? key with
  | none => exact if_pos rfl
  | some v =>
      obtain ⟨e, hfind, rfl⟩ := Option.map_eq_some_iff.mp hget
      exact if_neg (h.proper.ne_missing e (List.mem_of_find?_eq_some hfind))

/-- A map of words acts as a finite map that refuses the missing value. -/
theorem Represents.actsAs (h : m.Represents missing within M) :
    MapInterface.ActsAs (Spec.refusal? missing) (Represents missing within) (Overfull missing within) m
      M where
  distinct := h.table.distinct
  len_eq := h.table.len_eq_length
  contains_eq key := by
    rw [FiniteMap.contains_eq, ← h.get?_eq]
    rfl
  get?_eq := h.get?_eq
  insert key value hheld := by
    have hv : value ≠ missing := fun hv => by simp [Spec.refusal?, hv] at hheld
    -- the map answers the missing value for an absent key; the interface reads that as no value
    have hinsert : Changes missing within (m.insert key value) (Spec.insert missing M key value) :=
      h.insert
    rw [Spec.insert, Spec.checked, if_neg hv] at hinsert
    have hmapped := hinsert.map fun old => if old = m.missing then none else some old
    rwa [show Change.map _ (.done (M.insert key value) (Spec.read missing M key)) =
      .done (M.insert key value) (M.get? key) from congrArg (Change.done _) (h.value?_read key)]
      at hmapped
  insert_refused key value error hrefused := by
    obtain ⟨hv, rfl⟩ : value = missing ∧ Spec.refusal missing = error := by
      simpa [Spec.refusal?] using hrefused
    have hinsert : m.insert key value = .fail m (.refused (Spec.refusal missing)) := by
      rw [WordMap.insert, WordMap.checked, if_pos (hv.trans h.missing_eq.symm), refusal, h.missing_eq]
    exact congrArg (Change.map _) hinsert
  erase := h.erase?
  clear := h.clear
  visit := h.entries_perm

omit [SignedWord κ] in
theorem Spec.bind_refusal?_of_stores {op : MapInterface.Operation κ ν} (h : op.stores? = some missing) :
    op.stores?.bind (refusal? missing) = some (refusal missing) := by
  rw [h]
  exact if_pos rfl

omit [SignedWord κ] in
theorem Spec.bind_refusal?_eq_none_iff {op : MapInterface.Operation κ ν} :
    op.stores?.bind (refusal? missing) = none ↔ op.stores? ≠ some missing := by
  cases op.stores? with
  | none => simp
  | some value => simp [refusal?]

/-- **A run of a map of words looks as it does on a finite map**, but that the missing value is refused. -/
structure Interchangeable (missing : ν) (ops : List (MapInterface.Operation κ ν)) (m : WordMap κ ν) :
    Prop where
  /-- Insertions of the missing value are refused, and everything else looks as on a finite map. -/
  refusing : RunsAlike MapInterface.OtherKey (trace MapInterface.Operation.perform ops m)
    (trace (MapInterface.Operation.refusing (Spec.refusal? missing)) ops {})
  /-- To refuse the missing value leaves the map as it was. -/
  unchanged : ∀ op : MapInterface.Operation κ ν, op.stores? = some missing →
    op.perform (finalState MapInterface.Operation.perform ops m) =
      .fail (finalState MapInterface.Operation.perform ops m)
        (.refused (.missingValue (wordText missing)))
  /-- Nothing else is refused. -/
  refused_only : ∀ (op : MapInterface.Operation κ ν) error,
    (op.perform (finalState MapInterface.Operation.perform ops m)).result = .error (.refused error) →
      op.stores? = some missing
  /-- Without the insertions that are refused, the map is the same in the end. -/
  kept_state : finalState MapInterface.Operation.perform (ops.filter (·.stores? ≠ some missing)) m =
    finalState MapInterface.Operation.perform ops m
  /-- Without them, the run looks as on a finite map. -/
  kept : RunsAlike MapInterface.OtherKey
    (trace MapInterface.Operation.perform (ops.filter (·.stores? ≠ some missing)) m)
    (trace MapInterface.Operation.perform (ops.filter (·.stores? ≠ some missing))
      ({} : FiniteMap κ ν))

theorem interchangeable_of_ofConfig {config : TableConfig} (hm : ofConfig config missing = .ok m)
    (ops : List (MapInterface.Operation κ ν))
    (hno : NoOverflow (trace MapInterface.Operation.perform ops m)) : m.Interchangeable missing ops := by
  have hstart : m.Represents missing True {} := represents_of_ofConfig hm
  have hkeeps : ∀ op : MapInterface.Operation κ ν, decide (op.stores? ≠ some missing) = true ↔
      op.stores?.bind (Spec.refusal? missing) = none := by
    intro op
    rw [decide_eq_true_iff, Spec.bind_refusal?_eq_none_iff]
  obtain ⟨hsub, hfinal⟩ := MapInterface.run_kept Represents.actsAs hstart ops hno hkeeps
  obtain ⟨hrefusing, hreached⟩ := MapInterface.run_refusing Represents.actsAs hstart ops hno
  obtain ⟨hkept, -⟩ :=
    MapInterface.run_refusing Represents.actsAs hstart _ fun c hc => hno c (hsub.mem hc)
  have hnone : ∀ op ∈ ops.filter (·.stores? ≠ some missing),
      op.stores?.bind (Spec.refusal? missing) = none :=
    fun op hop => (hkeeps op).mp (List.mem_filter.mp hop).2
  rw [MapInterface.Operation.trace_refusing hnone] at hkept
  exact {
    refusing := hrefusing
    unchanged := fun op hop => hreached.actsAs.perform_of_some (Spec.bind_refusal?_of_stores hop)
    refused_only := fun op error hresult => by
      have hbind := hreached.actsAs.bind_ne_none_of_refused hreached hresult
      rwa [Ne, Spec.bind_refusal?_eq_none_iff, not_not] at hbind
    kept_state := hfinal
    kept := hkept }

end WordMap

namespace ValueMap

variable {σ η κ ν : Type} [EntrySlot σ κ ν] [KeyHash η κ] [BEq κ] [EquivBEq κ] {hashing : η}
  {within : Prop} {m : ValueMap σ η κ ν} {M : FiniteMap κ ν}

/-- A map that refuses nulls acts as a finite map, and refuses no value. -/
theorem RepresentsImage.actsAs (hE : LawfulSlots σ hashing) (h : m.RepresentsImage id hashing within M) :
    MapInterface.ActsAs (fun _ => none) (RepresentsImage id hashing within)
      (Overfull hashing .nonNull within) m M := by
  have hid : ∀ a b : κ, (id a == id b) = (a == b) := fun _ _ => rfl
  exact {
    distinct := h.distinct hid
    len_eq := h.len_eq
    contains_eq := h.contains_eq hid hE
    get?_eq := h.get?_eq hid hE
    insert := fun key value _ => h.store hid hE key value
    insert_refused := nofun
    erase := h.erase hid hE
    clear := Represents.clear h hE
    visit := by
      have hvalues := h.valueEntries_perm
      rwa [show (fun e : κ × ν => (id e.1, e.2)) = id from rfl, List.map_id] at hvalues }

theorem interchangeable_of_ofConfig (hE : LawfulSlots σ hashing) {config : TableConfig}
    (hm : ofConfig config .nonNull hashing = .ok m) (ops : List (MapInterface.Operation κ ν))
    (hno : NoOverflow (trace MapInterface.Operation.perform ops m)) :
    RunsAlike MapInterface.OtherKey (trace MapInterface.Operation.perform ops m)
      (trace MapInterface.Operation.perform ops ({} : FiniteMap κ ν)) := by
  have hstart : m.RepresentsImage id hashing True {} := represents_of_ofConfig hE hm
  obtain ⟨hrun, -⟩ := MapInterface.run_refusing (RepresentsImage.actsAs hE) hstart ops hno
  rwa [MapInterface.Operation.trace_refusing fun op _ => Option.bind_fun_none op.stores?] at hrun

end ValueMap

/-! ### The sets of the library -/

theorem WordSet.Represents.actsAs {α : Type} [SignedWord α] {within : Prop} {s : WordSet α}
    {S : FiniteSet α} (h : s.Represents within S) :
    SetInterface.ActsAs (Represents within) (Overfull within) s S where
  distinct := h.distinct
  len_eq := h.len_eq
  contains_eq := h.contains_eq
  insert := h.insert
  erase := h.erase
  visit := h.members

theorem KeySet.actsAs {η α : Type} [Hasher η α] [BEq α] [EquivBEq α] {hasher : η}
    (hlawful : Hasher.Lawful hasher α) {within : Prop} {s : KeySet η α} {S : FiniteSet α}
    (h : MemberSet.Represents ⟨hasher⟩ within s S) :
    SetInterface.ActsAs (MemberSet.Represents ⟨hasher⟩ within) (MemberSet.Overfull ⟨hasher⟩ within) s S := by
  have hE : MemberSet.LawfulSlots (Option (HashedMember α)) (⟨hasher⟩ : Mixed η) _ :=
    hashedMember_lawful hlawful
  exact {
    distinct := h.distinct
    len_eq := h.len_eq
    contains_eq := h.contains_eq hE
    insert := fun x => h.insert hE (EntryLayout.anyEntry x ())
    erase := h.erase hE
    visit := h.members_perm }

/-! ### Every run -/

/-- **Containers are interchangeable behind their interface**, as long as no insertion fails to grow a table:
every run of a map looks as it does on a plain finite map, and every run of a set as on a plain finite set.
Only a map of words refuses a value. -/
theorem interchangeable_of_run (config : TableConfig) :
    (∀ {κ ν : Type} [SignedWord κ] [SignedWord ν] {missing : ν} {m : WordMap κ ν},
      WordMap.ofConfig config missing = .ok m → ∀ ops : List (MapInterface.Operation κ ν),
        NoOverflow (trace MapInterface.Operation.perform ops m) → m.Interchangeable missing ops) ∧
    (∀ {κ ν : Type} [SignedWord κ] {m : WordKeyMap κ ν},
      ValueMap.ofConfig config .nonNull {} = .ok m → ∀ ops : List (MapInterface.Operation κ ν),
        NoOverflow (trace MapInterface.Operation.perform ops m) →
        RunsAlike MapInterface.OtherKey (trace MapInterface.Operation.perform ops m)
          (trace MapInterface.Operation.perform ops ({} : FiniteMap κ ν))) ∧
    (∀ {η κ ν : Type} [Hasher η κ] [BEq κ] [EquivBEq κ] {hasher : η}, Hasher.Lawful hasher κ →
      ∀ {m : KeyMap η κ ν}, ValueMap.ofConfig config .nonNull ⟨hasher⟩ = .ok m →
      ∀ ops : List (MapInterface.Operation κ ν),
        NoOverflow (trace MapInterface.Operation.perform ops m) →
        RunsAlike MapInterface.OtherKey (trace MapInterface.Operation.perform ops m)
          (trace MapInterface.Operation.perform ops ({} : FiniteMap κ ν))) ∧
    (∀ {α : Type} [SignedWord α] {s : WordSet α}, WordSet.ofConfig config = .ok s →
      ∀ ops : List (SetInterface.Operation α),
        NoOverflow (trace SetInterface.Operation.perform ops s) →
        RunsAlike SetInterface.Other (trace SetInterface.Operation.perform ops s)
          (trace SetInterface.Operation.perform ops ({} : FiniteSet α))) ∧
    (∀ {η α : Type} [Hasher η α] [BEq α] [EquivBEq α] {hasher : η}, Hasher.Lawful hasher α →
      ∀ {s : KeySet η α}, MemberSet.ofConfig config ⟨hasher⟩ = .ok s →
      ∀ ops : List (SetInterface.Operation α),
        NoOverflow (trace SetInterface.Operation.perform ops s) →
        RunsAlike SetInterface.Other (trace SetInterface.Operation.perform ops s)
          (trace SetInterface.Operation.perform ops ({} : FiniteSet α))) := by
  refine ⟨WordMap.interchangeable_of_ofConfig, ?_, ?_, ?_, ?_⟩
  · intro κ ν _ m hm ops hno
    exact ValueMap.interchangeable_of_ofConfig (wordSlot_lawful {}) hm ops hno
  · intro η κ ν _ _ _ hasher hlawful m hm ops hno
    exact ValueMap.interchangeable_of_ofConfig (bucket_lawful hlawful) hm ops hno
  · intro α _ s hs ops hno
    have hstart : s.Represents True {} := WordSet.represents_of_ofConfig hs
    exact SetInterface.run_finiteSet WordSet.Represents.actsAs hstart ops hno
  · intro η α _ _ _ hasher hlawful s hs ops hno
    have hstart : MemberSet.Represents ⟨hasher⟩ True s {} :=
      MemberSet.represents_of_ofConfig (hashedMember_lawful hlawful) hs
    exact SetInterface.run_finiteSet (KeySet.actsAs hlawful) hstart ops hno

/-- Runs with growth, with minus one as a key, as the missing value and as a member, and with a hasher under
which all keys collide. The maps from words look like each other where no missing value is stored. -/
theorem interchangeable_of_run_minusOne :
    let mapOps : List (MapInterface.Operation Int32 Int32) :=
      [.insert (-1) 5, .insert 3 (-1), .insert 3 30, .insert (-1) (-1), .visit, .insert 1 10, .insert 9 90,
        .insert 17 170, .insert 25 250, .erase 9, .insert 33 330, .get? 17, .contains 9, .visit, .len,
        .clear, .isEmpty]
    let kept := mapOps.filter (·.stores? ≠ some (-1))
    let keyOps : List (MapInterface.Operation String Int32) :=
      [.insert "a" 1, .insert "b" 2, .insert "a" 3, .erase "b", .get? "a", .visit, .len]
    let setOps : List (SetInterface.Operation Int32) :=
      [.insert (-1), .insert 0, .insert (-1), .contains (-1), .visit, .erase (-1), .erase (-1), .isEmpty,
        .len]
    let memberOps : List (SetInterface.Operation String) :=
      [.insert "a", .insert "b", .insert "a", .erase "a", .visit, .contains "b"]
    let hasher := HasherChoice.constant 7
    let words : WordMap Int32 Int32 := .empty (-1)
    let wordKeys : WordKeyMap Int32 Int32 := .empty .nonNull {}
    let keys : KeyMap HasherChoice String Int32 := .empty .nonNull ⟨hasher⟩
    let wordSet : WordSet Int32 := .empty
    let keySet : KeySet HasherChoice String := .empty ⟨hasher⟩
    Hasher.Lawful hasher String ∧
      (WordMap.ofConfig {} (-1) = .ok words ∧
        NoOverflow (trace MapInterface.Operation.perform mapOps words) ∧
        words.Interchangeable (-1) mapOps) ∧
      (ValueMap.ofConfig {} .nonNull {} = .ok wordKeys ∧
        NoOverflow (trace MapInterface.Operation.perform kept wordKeys) ∧
        RunsAlike MapInterface.OtherKey (trace MapInterface.Operation.perform kept words)
          (trace MapInterface.Operation.perform kept wordKeys)) ∧
      (ValueMap.ofConfig {} .nonNull ⟨hasher⟩ = .ok keys ∧
        NoOverflow (trace MapInterface.Operation.perform keyOps keys) ∧
        RunsAlike MapInterface.OtherKey (trace MapInterface.Operation.perform keyOps keys)
          (trace MapInterface.Operation.perform keyOps ({} : FiniteMap String Int32))) ∧
      (WordSet.ofConfig {} = .ok wordSet ∧
        NoOverflow (trace SetInterface.Operation.perform setOps wordSet) ∧
        RunsAlike SetInterface.Other (trace SetInterface.Operation.perform setOps wordSet)
          (trace SetInterface.Operation.perform setOps ({} : FiniteSet Int32))) ∧
      (MemberSet.ofConfig {} ⟨hasher⟩ = .ok keySet ∧
        NoOverflow (trace SetInterface.Operation.perform memberOps keySet) ∧
        RunsAlike SetInterface.Other (trace SetInterface.Operation.perform memberOps keySet)
          (trace SetInterface.Operation.perform memberOps ({} : FiniteSet String))) := by
  intro mapOps kept keyOps setOps memberOps hasher words wordKeys keys wordSet keySet
  have hlawful : Hasher.Lawful hasher String := fun a b h => by rw [eq_of_beq h]
  have hwords : WordMap.ofConfig {} (-1) = .ok words := WordMap.ofConfig_default _
  have hno : NoOverflow (trace MapInterface.Operation.perform mapOps words) := by decide +kernel
  have hrun := (interchangeable_of_run {}).1 hwords mapOps hno
  refine ⟨hlawful, ⟨hwords, hno, hrun⟩, ?_, ?_, ?_, ?_⟩
  · have hwordKeys : ValueMap.ofConfig {} .nonNull {} = .ok wordKeys := ValueMap.ofConfig_default _ _
    have hno' : NoOverflow (trace MapInterface.Operation.perform kept wordKeys) := by decide +kernel
    have hrun' := (interchangeable_of_run {}).2.1 hwordKeys kept hno'
    exact ⟨hwordKeys, hno', hrun.kept.trans (hrun'.symm MapInterface.OtherKey.symm)⟩
  · have hkeys : ValueMap.ofConfig {} .nonNull ⟨hasher⟩ = .ok keys := ValueMap.ofConfig_default _ _
    have hno' : NoOverflow (trace MapInterface.Operation.perform keyOps keys) := by decide +kernel
    exact ⟨hkeys, hno', (interchangeable_of_run {}).2.2.1 hlawful hkeys keyOps hno'⟩
  · have hwordSet : WordSet.ofConfig {} = .ok wordSet := WordSet.ofConfig_default
    have hno' : NoOverflow (trace SetInterface.Operation.perform setOps wordSet) := by decide +kernel
    exact ⟨hwordSet, hno', (interchangeable_of_run {}).2.2.2.1 hwordSet setOps hno'⟩
  · have hkeySet : MemberSet.ofConfig {} ⟨hasher⟩ = .ok keySet := MemberSet.ofConfig_default _
    have hno' : NoOverflow (trace SetInterface.Operation.perform memberOps keySet) := by decide +kernel
    exact ⟨hkeySet, hno', (interchangeable_of_run {}).2.2.2.2 hlawful hkeySet memberOps hno'⟩

/-- Where an insertion fails to grow the table, a finite map shows the difference: with the least load factor
this is the first one. -/
theorem not_runsAlike_least :
    let m : WordMap Int32 Int32 := .ofSizing (.ofCapacity minCapacity ⟨1⟩) .cached (-1)
    let op : MapInterface.Operation Int32 Int32 := .insert 1 5
    WordMap.ofConfig { loadFactor := ⟨1⟩ } (-1) = .ok m ∧ op.stores? ≠ some (-1) ∧
      (op.perform m).result = .error .capacityOverflow ∧
      (op.perform ({} : FiniteMap Int32 Int32)).result = .ok (.value? none) ∧
      ¬ RunsAlike MapInterface.OtherKey (trace MapInterface.Operation.perform [op] m)
        (trace MapInterface.Operation.perform [op] ({} : FiniteMap Int32 Int32)) := by
  intro m op
  have hm : WordMap.ofConfig { loadFactor := ⟨1⟩ } (-1) = .ok m := by
    rw [WordMap.ofConfig, ofConfig_least]
    rfl
  have hresult : (op.perform m).result = .error .capacityOverflow := by decide +kernel
  refine ⟨hm, by decide, hresult, rfl, fun halike => ?_⟩
  cases halike with
  | cons first _ =>
      rw [hresult] at first
      cases first

end LinearProbing
