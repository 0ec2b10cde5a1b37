import LinearProbing.Proofs.Reachable
import LinearProbing.Proofs.ValueMap.Refinement

/-!
# LinearProbing.Proofs.ValueMap.StoredKeys

**Which of two equal keys a map keeps.** Keys may be equal without being the same, and then a map stores one
of them (`storedKey?`). Every operation but two leaves the key of an entry that it finds, whatever it does to
the value. The two are `compute` and `merge`: they take the entry out, and put back another one with the key of
the call (`Operation.rekeys`).

So the stored key goes back to the operation that made the entry, or to the last one of the two since then
(`StemsFrom`).
-/

namespace LinearProbing

/-! ### Finite maps -/

namespace FiniteMap

variable {κ ν : Type} [BEq κ] {m n : FiniteMap κ ν} {key other : κ}

/-- The key that is stored in the entry of a key. -/
def storedKey? (m : FiniteMap κ ν) (key : κ) : Option κ := (m.find? key).map Prod.fst

theorem contains_eq_isSome_storedKey? (m : FiniteMap κ ν) (key : κ) :
    m.contains key = (m.storedKey? key).isSome := by
  rw [contains_eq_isSome, storedKey?, Option.isSome_map]

variable [EquivBEq κ]

/-- A value that is stored leaves the key, if there is one. -/
theorem storedKey?_insert (m : FiniteMap κ ν) (key other : κ) (value : ν) :
    (m.insert key value).storedKey? other =
      (m.storedKey? other).or (if key == other then some key else none) := by
  rw [storedKey?, find?_insert]
  cases hother : key == other with
  | true =>
      rw [if_pos rfl, if_pos rfl, storedKey?, ← m.find?_congr hother]
      cases m.find? key <;> rfl
  | false => exact Option.or_none.symm

/-- An insertion under a present key changes no stored key. -/
theorem storedKey?_insert_of_contains (hc : m.contains key = true) (other : κ) (value : ν) :
    (m.insert key value).storedKey? other = m.storedKey? other := by
  rw [storedKey?_insert]
  cases hother : key == other with
  | true =>
      rw [contains_eq_isSome, m.find?_congr hother] at hc
      obtain ⟨e, he⟩ := Option.isSome_iff_exists.mp hc
      rw [storedKey?, he]
      rfl
  | false => exact Option.or_none

theorem storedKey?_erase (m : FiniteMap κ ν) (key other : κ) :
    (m.erase key).storedKey? other = if key == other then none else m.storedKey? other := by
  rw [storedKey?, find?_erase]
  cases key == other <;> rfl

/-- An entry that is put is stored under the key of the call. -/
theorem storedKey?_put (m : FiniteMap κ ν) (key other : κ) (value : ν) :
    (m.put key value).storedKey? other = if key == other then some key else m.storedKey? other := by
  rw [storedKey?, find?_put]
  cases key == other <;> rfl

/-- Of the entries of a list, the first one under a key gives its key to the map. -/
theorem storedKey?_foldl_insert {μ : Type} (f : μ → ν) (l : List (κ × μ)) (m : FiniteMap κ ν) (key : κ) :
    (l.foldl (fun m e => m.insert e.1 (f e.2)) m).storedKey? key =
      (m.storedKey? key).or ((l.find? (·.1 == key)).map Prod.fst) := by
  induction l generalizing m with
  | nil => exact Option.or_none.symm
  | cons e rest ih =>
      rw [List.foldl_cons, ih, storedKey?_insert, Option.or_assoc, List.find?_cons]
      cases e.1 == key <;> rfl

/-- A map whose keys are all in another one stores the keys that the other one stores. -/
theorem Distinct.storedKey?_of_keys (h : m.Distinct) (hkeys : ∀ e ∈ n.entries, ∃ v, (e.1, v) ∈ m.entries)
    {stored : κ} (hstored : n.storedKey? key = some stored) : m.storedKey? key = some stored := by
  obtain ⟨e, he, rfl⟩ := Option.map_eq_some_iff.mp hstored
  obtain ⟨v, hv⟩ := hkeys e (List.mem_of_find?_eq_some he)
  rw [storedKey?, ← m.find?_congr (key_of_find? he), h.find?_eq hv, Option.map_some]

end FiniteMap

namespace ValueMap

variable {σ η κ ν : Type} [EntrySlot σ κ ν] [BEq κ]

/-! ### The keys that operations bring -/

/-- A key brings itself to all keys that are equal to it. -/
def bringing (key other : κ) : Option κ := if key == other then some key else none

/-- The key with which an operation would make an entry under a key. -/
def Operation.brings? : Operation σ η κ ν → κ → Option κ
  | insert key _ | insertNull key | insertIfAbsent key _ | computeIfAbsent key _ | compute key _
  | merge key _ _ => bringing key
  | insertAll other => fun key => (other.entries.find? (·.1 == key)).map Prod.fst
  | extend entries => fun key => (entries.find? (·.1 == key)).map Prod.fst
  | _ => fun _ => none

/-- The operations that put an entry with the key of the call in the place of the one that is there. -/
def Operation.rekeys : Operation σ η κ ν → Bool
  | compute .. | merge .. => true
  | _ => false

/-- The key that is stored after an operation, if there is an entry, by the one that was stored before. -/
def Operation.keyAfter (op : Operation σ η κ ν) (key : κ) (before : Option κ) : Option κ :=
  if op.rekeys then (op.brings? key).or before else before.or (op.brings? key)

/-- Either the operation has brought the key, or it was stored before and has not been replaced. -/
theorem Operation.brings?_or_left {op : Operation σ η κ ν} {key stored : κ} {before : Option κ}
    (h : op.keyAfter key before = some stored) :
    (op.brings? key = some stored ∧ (before = none ∨ op.rekeys = true)) ∨
      (before = some stored ∧ (op.rekeys = true → op.brings? key = none)) := by
  rw [keyAfter] at h
  split at h
  · next hrekeys =>
    cases hbrings : op.brings? key with
    | none => exact Or.inr ⟨by rwa [hbrings] at h, fun _ => rfl⟩
    | some brought =>
        rw [hbrings] at h
        exact Or.inl ⟨h, Or.inr hrekeys⟩
  · next hkeeps =>
    -- an operation that does not rekey brings its key only where there was none
    cases before with
    | none => exact Or.inl ⟨h, Or.inl rfl⟩
    | some kept => exact Or.inr ⟨h, fun hrekeys => absurd hrekeys hkeeps⟩

/-! ### Operations on finite maps -/

namespace Spec

variable {M N : FiniteMap κ (Option ν)} {brings : κ → Option κ} {key : κ}

/-- The keys that are stored were stored before, or else are brought. -/
def KeepsKeys (brings : κ → Option κ) (M N : FiniteMap κ (Option ν)) : Prop :=
  ∀ key stored, N.storedKey? key = some stored → (M.storedKey? key).or (brings key) = some stored

/-- The keys that are stored are brought, or else were stored before. -/
def TakesKeys (brings : κ → Option κ) (M N : FiniteMap κ (Option ν)) : Prop :=
  ∀ key stored, N.storedKey? key = some stored → (brings key).or (M.storedKey? key) = some stored

/-- Keys are kept if those that are stored afterwards were stored before. -/
theorem KeepsKeys.of_imp (h : ∀ key stored, N.storedKey? key = some stored →
    M.storedKey? key = some stored) : KeepsKeys brings M N := by
  intro key stored hstored
  rw [h key stored hstored]
  rfl

theorem keepsKeys_refl (M : FiniteMap κ (Option ν)) : KeepsKeys brings M M := .of_imp fun _ _ => id

variable [EquivBEq κ]

/-- A removal takes a key away and leaves the others. -/
theorem keepsKeys_erase (M : FiniteMap κ (Option ν)) (key : κ) : KeepsKeys brings M (M.erase key) := by
  refine .of_imp fun other stored hstored => ?_
  rw [FiniteMap.storedKey?_erase] at hstored
  split at hstored
  · contradiction
  · exact hstored

/-- An insertion brings its key only where there was none. -/
theorem keepsKeys_insert (M : FiniteMap κ (Option ν)) (key : κ) (stored : Option ν) :
    KeepsKeys (bringing key) M (M.insert key stored) := by
  intro other _ h
  rwa [FiniteMap.storedKey?_insert] at h

theorem keepsKeys_insert_of_contains (hc : M.contains key = true) (stored : Option ν) :
    KeepsKeys brings M (M.insert key stored) :=
  .of_imp fun other _ h => by rwa [FiniteMap.storedKey?_insert_of_contains hc] at h

omit [EquivBEq κ] in
/-- A key under which a value is read is present. -/
theorem contains_of_read {value : ν} (h : read M key = some value) : M.contains key = true := by
  rw [FiniteMap.contains_eq, Option.join_eq_some_iff.mp h]
  rfl

/-- Storing in the place of a null keeps the key of the null. -/
theorem keepsKeys_insertIfAbsent (M : FiniteMap κ (Option ν)) (key : κ) (value : ν) :
    KeepsKeys (bringing key) M (insertIfAbsent M key value).state := by
  unfold insertIfAbsent
  split
  · exact keepsKeys_refl M
  · exact keepsKeys_insert M key (some value)

theorem keepsKeys_replace (M : FiniteMap κ (Option ν)) (key : κ) (value : ν) :
    KeepsKeys brings M (replace M key value) := by
  unfold replace
  split
  · next hc => exact keepsKeys_insert_of_contains hc (some value)
  · exact keepsKeys_refl M

theorem keepsKeys_replaceIf [BEq ν] (M : FiniteMap κ (Option ν)) (key : κ) (old new : ν) :
    KeepsKeys brings M (replaceIf M key old new) := by
  unfold replaceIf
  cases hread : read M key with
  | none => exact keepsKeys_refl M
  | some value =>
      split
      · exact keepsKeys_insert_of_contains (contains_of_read hread) (some new)
      · exact keepsKeys_refl M

theorem keepsKeys_modify (M : FiniteMap κ (Option ν)) (key : κ) (f : ν → ν) :
    KeepsKeys brings M (modify M key f) := by
  unfold modify
  split
  · next old hread => exact keepsKeys_insert_of_contains (contains_of_read hread) (some (f old))
  · exact keepsKeys_refl M

theorem keepsKeys_computeIfAbsent (M : FiniteMap κ (Option ν)) (key : κ) (f : κ → Reply (Option ν)) :
    KeepsKeys (bringing key) M (computeIfAbsent M key f).state := by
  unfold computeIfAbsent
  split
  · exact keepsKeys_refl M
  · refine Call.state_run (keepsKeys_refl M) fun computed => ?_
    cases computed with
    | none => exact keepsKeys_refl M
    | some value => exact keepsKeys_insert M key (some value)

/-- The key is taken out with its value and put back with it. -/
theorem keepsKeys_computeIfPresent (M : FiniteMap κ (Option ν)) (key : κ)
    (f : κ → ν → Reply (Option ν)) : KeepsKeys brings M (computeIfPresent M key f).state := by
  unfold computeIfPresent
  split
  · next hfind =>
    have hc : M.contains key = true := by rw [FiniteMap.contains_eq_isSome, hfind]; rfl
    refine Call.state_run (keepsKeys_erase M key) fun computed => ?_
    cases computed with
    | none => exact keepsKeys_erase M key
    | some value => exact keepsKeys_insert_of_contains hc (some value)
  · exact keepsKeys_refl M
  · exact keepsKeys_refl M

/-- A removal leaves no key for which another one could have been kept. -/
theorem takesKeys_erase (M : FiniteMap κ (Option ν)) (key : κ) :
    TakesKeys (bringing key) M (M.erase key) := by
  intro other stored h
  rw [FiniteMap.storedKey?_erase] at h
  split at h
  · contradiction
  · next hother =>
    rw [bringing, if_neg hother]
    exact h

/-- Putting an entry takes the key of the call, whether it was present or not. -/
theorem takesKeys_put (M : FiniteMap κ (Option ν)) (key : κ) (value : Option ν) :
    TakesKeys (bringing key) M (M.put key value) := by
  intro other stored h
  rw [FiniteMap.storedKey?_put] at h
  rw [bringing]
  split at h
  · next hother =>
    rw [if_pos hother]
    exact h
  · next hother =>
    rw [if_neg hother]
    exact h

theorem takesKeys_settle (M : FiniteMap κ (Option ν)) (key : κ) (computed : Option ν) :
    TakesKeys (bringing key) M (settle M key (M.put key ∘ some) computed).state := by
  cases computed with
  | none => exact takesKeys_erase M key
  | some value => exact takesKeys_put M key (some value)

/-- **A computation takes the key of the call.** The stored key goes with the entry that is taken out. -/
theorem takesKeys_compute (M : FiniteMap κ (Option ν)) (key : κ)
    (f : κ → Option ν → Reply (Option ν)) :
    TakesKeys (bringing key) M (compute M key f).state :=
  Call.state_run (takesKeys_erase M key) (takesKeys_settle M key)

/-- **A merge takes the key of the call**, also where there was an entry under an equal one. -/
theorem takesKeys_merge (M : FiniteMap κ (Option ν)) (key : κ) (value : ν)
    (f : ν → ν → Reply (Option ν)) : TakesKeys (bringing key) M (merge M key value f).state := by
  unfold merge
  split
  · exact Call.state_run (takesKeys_erase M key) (takesKeys_settle M key)
  · exact takesKeys_put M key (some value)

end Spec

/-- **What an operation does to the stored keys** of a finite map. -/
theorem Operation.keyAfter_specify [EquivBEq κ] [BEq ν] {M : FiniteMap κ (Option ν)}
    {order : List (κ × Option ν)} (policy : NullPolicy) (op : Operation σ η κ ν) (hM : M.Distinct)
    (horder : order.Perm M.entries) (key stored : κ) :
    (op.specify policy order M).state.storedKey? key = some stored →
      op.keyAfter key (M.storedKey? key) = some stored := by
  -- what goes through the entries leaves some of them, with other values at most
  have hfewer : ∀ {l : List (κ × Option ν)} {brings : κ → Option κ},
      (∀ e ∈ l, ∃ v, (e.1, v) ∈ M.entries) → Spec.KeepsKeys brings M ⟨l⟩ :=
    fun hl => .of_imp fun _ _ => hM.storedKey?_of_keys hl
  have hordered : ∀ e ∈ order, ∃ v, (e.1, v) ∈ M.entries :=
    fun e he => ⟨e.2, horder.mem_iff.mp he⟩
  have hsifted : ∀ (selects : κ × Option ν → Reply Bool) (e : κ × Option ν),
      e ∈ (sift selects order false).state → ∃ v, (e.1, v) ∈ M.entries :=
    fun selects e he => hordered e ((sift_sublist _ order false).mem he)
  cases op with
  | get? | contains | containsValue | len | compact | copy => exact Spec.keepsKeys_refl M key stored
  | insert other value => exact Spec.keepsKeys_insert M other (some value) key stored
  | insertNull other =>
      cases policy with
      | nonNull => exact Spec.keepsKeys_refl M key stored
      | nullable => exact Spec.keepsKeys_insert M other none key stored
  | insertIfAbsent other value => exact Spec.keepsKeys_insertIfAbsent M other value key stored
  | replace other value => exact Spec.keepsKeys_replace M other value key stored
  | replaceIf other old new => exact Spec.keepsKeys_replaceIf M other old new key stored
  | modify other f => exact Spec.keepsKeys_modify M other f key stored
  | insertAll other =>
      exact (FiniteMap.storedKey?_foldl_insert id other.entries M key).symm.trans
  | extend entries =>
      exact (FiniteMap.storedKey?_foldl_insert some entries M key).symm.trans
  | erase other | eraseEntry other => exact Spec.keepsKeys_erase M other key stored
  | eraseIfValue other value =>
      simp only [specify, Spec.eraseIfValue]
      split
      · exact Spec.keepsKeys_erase M other key stored
      · exact Spec.keepsKeys_refl M key stored
  | eraseWhere selects => exact hfewer (hsifted _) key stored
  | retain keeps => exact hfewer (hsifted _) key stored
  | forEach f =>
      have hstate : (Call.forEach (fun e => f e.1 e.2) M order).state = M := Call.state_forEach ..
      exact hstate.symm ▸ Spec.keepsKeys_refl M key stored
  | clear => exact hfewer (List.forall_mem_nil _) key stored
  | computeIfAbsent other f => exact Spec.keepsKeys_computeIfAbsent M other f key stored
  | computeIfPresent other f => exact Spec.keepsKeys_computeIfPresent M other f key stored
  | compute other f => exact Spec.takesKeys_compute M other f key stored
  | merge other value f => exact Spec.takesKeys_merge M other value f key stored
  | cursor script =>
      refine hfewer (Walk.forall_runScript script ?_ ?_) key stored
      · intro value update hupdate e x he hx
        obtain rfl := Except.ok.inj hupdate
        obtain ⟨old, -, rfl⟩ := Option.map_eq_some_iff.mp hx
        exact he
      · simpa [Walk.contents, Spec.walk] using hordered

/-! ### Operations on maps -/

variable [KeyHash η κ]

/-- The key that is stored in the entry of a key. -/
def storedKey? (m : ValueMap σ η κ ν) (key : κ) : Option κ := (m.lookup? key).map Prod.fst

/-- What shows the keys of a map shows the keys that are stored. -/
structure ShowsStoredKeys (m : ValueMap σ η κ ν) : Prop where
  /-- Iteration gives the entries that lookups find, each with its stored key. -/
  entries : ∀ e, e ∈ m.entries ↔ m.lookup? e.1 = some e
  keys : ∀ stored, stored ∈ m.keys ↔ m.storedKey? stored = some stored
  /-- The removed entry comes with its stored key. -/
  eraseEntry : ∀ key, (m.eraseEntry key).1.map Prod.fst = m.storedKey? key
  /-- So does every entry that a cursor gives, whatever it has removed or written before. -/
  cursor : ∀ script e, .entry (some e) ∈ (CursorInterface.runScript script m.openCursor).1 →
    m.storedKey? e.1 = some e.1

/-- What an operation does to the stored keys of a map. -/
structure KeepsStoredKeys [BEq ν] (m : ValueMap σ η κ ν) (op : Operation σ η κ ν) : Prop where
  /-- An entry that was there keeps its key, -/
  kept : op.rekeys = false → ∀ key, m.contains key = true → (op.perform m).state.contains key = true →
    (op.perform m).state.storedKey? key = m.storedKey? key
  /-- except that it takes the key of a `compute` or a `merge`, if that was called with an equal key. -/
  rekeyed : op.rekeys = true → ∀ key, m.contains key = true → (op.perform m).state.contains key = true →
    (op.perform m).state.storedKey? key = (op.brings? key).or (m.storedKey? key)
  /-- A new entry has the key that the operation brings. -/
  created : ∀ key, m.contains key = false → (op.perform m).state.contains key = true →
    (op.perform m).state.storedKey? key = op.brings? key

/-- The key that a run has left stored comes from the operation that made the entry, or from a `compute` or a
`merge`. Since then the entry was always there, and none of the two was called with an equal key. -/
structure StemsFrom [BEq ν] (ops : List (Operation σ η κ ν)) (m : ValueMap σ η κ ν) (key stored : κ)
    (before : List (Operation σ η κ ν)) (op : Operation σ η κ ν) (after : List (Operation σ η κ ν)) :
    Prop where
  split : ops = before ++ op :: after
  brought : op.brings? key = some stored
  origin : (finalState Operation.perform before m).contains key = false ∨ op.rekeys = true
  present : ∀ c ∈ trace Operation.perform (op :: after) (finalState Operation.perform before m),
    c.state.contains key = true
  last : ∀ later ∈ after, later.rekeys = true → later.brings? key = none

section Represented

variable [EquivBEq κ] {hashing : η} {policy : NullPolicy} {within : Prop}
variable {m : ValueMap σ η κ ν} {M : FiniteMap κ (Option ν)}

/-- The stored key of a map is that of the finite map it stands for. -/
theorem Represents.storedKey?_eq (h : m.Represents hashing policy within M) (hE : LawfulSlots σ hashing)
    (key : κ) : m.storedKey? key = M.storedKey? key := by
  rw [storedKey?, h.lookup?_eq hE, FiniteMap.storedKey?]

theorem Represents.contains_eq_isSome (h : m.Represents hashing policy within M)
    (hE : LawfulSlots σ hashing) (key : κ) : m.contains key = (m.storedKey? key).isSome := by
  rw [h.contains_eq hE, h.storedKey?_eq hE, FiniteMap.contains_eq_isSome_storedKey?]

/-- **Whatever shows keys shows the stored ones.** -/
theorem Represents.showsStoredKeys (h : m.Represents hashing policy within M)
    (hE : LawfulSlots σ hashing) : m.ShowsStoredKeys := by
  have hentries : ∀ e, e ∈ m.entries ↔ m.lookup? e.1 = some e := by
    intro e
    rw [h.lookup?_eq hE]
    exact ⟨fun he => h.distinct.find?_eq (h.table.entries.mem_iff.mp he),
      fun hfind => h.table.entries.mem_iff.mpr (List.mem_of_find?_eq_some hfind)⟩
  refine ⟨hentries, ?_, ?_, ?_⟩
  · intro stored
    constructor
    · intro hmem
      obtain ⟨e, he, rfl⟩ := List.mem_map.mp hmem
      rw [storedKey?, (hentries e).mp he, Option.map_some]
    · intro hstored
      obtain ⟨e, he, rfl⟩ := Option.map_eq_some_iff.mp hstored
      exact List.mem_map_of_mem ((hentries e).mpr he)
  · intro key
    rw [(h.eraseEntry hE key).1, h.storedKey?_eq hE, FiniteMap.storedKey?]
  · intro script e he
    rw [((follows_walk hE).runScript script h.openCursor).1] at he
    -- a cursor passes only entries of the map, and writing keeps their keys
    have hordered : ∀ x ∈ (Spec.walk m.scanOrder).contents, M.storedKey? x.1 = some x.1 := by
      intro x hx
      have hmem : x ∈ M.entries := h.scanOrder_perm.mem_iff.mp (by simpa [Walk.contents, Spec.walk] using hx)
      rw [FiniteMap.storedKey?, h.distinct.find?_eq hmem, Option.map_some]
    rw [h.storedKey?_eq hE]
    refine Walk.forall_answers script ?_ hordered he
    intro value update hupdate x y hx hy
    obtain rfl := Except.ok.inj hupdate
    obtain ⟨old, -, rfl⟩ := Option.map_eq_some_iff.mp hy
    exact hx

variable [BEq ν]

/-- **One operation**, unless it fails to grow the table. -/
theorem Represents.storedKey?_perform (h : m.Represents hashing policy within M)
    (hE : LawfulSlots σ hashing) (op : Operation σ η κ ν)
    (hno : (op.perform m).result ≠ .error .capacityOverflow) :
    (∃ N, (op.perform m).state.Represents hashing policy within N) ∧
      ∀ key, (op.perform m).state.contains key = true →
        (op.perform m).state.storedKey? key = op.keyAfter key (m.storedKey? key) := by
  obtain ⟨d, ⟨order, horder, rfl⟩, hagrees | ⟨hoverflow, -⟩⟩ := h.perform hE op
  case inr => exact absurd hoverflow hno
  refine ⟨⟨_, hagrees.state⟩, fun key hc => ?_⟩
  rw [hagrees.state.contains_eq_isSome hE] at hc
  obtain ⟨stored, hstored⟩ := Option.isSome_iff_exists.mp hc
  rw [hstored, h.storedKey?_eq hE]
  rw [hagrees.state.storedKey?_eq hE] at hstored
  exact (op.keyAfter_specify policy h.distinct horder key stored hstored).symm

/-- **Each operation keeps the stored keys**, or takes that of its call. -/
theorem Represents.keepsStoredKeys (h : m.Represents hashing policy within M)
    (hE : LawfulSlots σ hashing) (op : Operation σ η κ ν)
    (hno : (op.perform m).result ≠ .error .capacityOverflow) : m.KeepsStoredKeys op := by
  obtain ⟨-, hafter⟩ := h.storedKey?_perform hE op hno
  have hcontains := h.contains_eq_isSome hE
  -- an entry that stays, an entry that is rekeyed, and one that is new
  constructor
  · intro hkeeps key hbefore hc
    rw [hcontains] at hbefore
    obtain ⟨stored, hstored⟩ := Option.isSome_iff_exists.mp hbefore
    rw [hafter key hc, Operation.keyAfter, hkeeps, hstored]
    rfl
  · intro hrekeys key _ hc
    rw [hafter key hc, Operation.keyAfter, if_pos hrekeys]
  · intro key hbefore hc
    rw [hcontains, Option.isSome_eq_false_iff, Option.isNone_iff_eq_none] at hbefore
    rw [hafter key hc, Operation.keyAfter, hbefore, Option.or_none]
    split <;> rfl

omit [EquivBEq κ] in
/-- The last operation has brought the key. -/
theorem stemsFrom_last {ops : List (Operation σ η κ ν)} {op : Operation σ η κ ν} {key stored : κ}
    (hbrings : op.brings? key = some stored)
    (horigin : (finalState Operation.perform ops m).contains key = false ∨ op.rekeys = true)
    (hc : (op.perform (finalState Operation.perform ops m)).state.contains key = true) :
    StemsFrom (ops ++ [op]) m key stored ops op [] where
  split := rfl
  brought := hbrings
  origin := horigin
  present := by
    intro c hmem
    obtain rfl := List.mem_singleton.mp hmem
    exact hc
  last := List.forall_mem_nil _

omit [EquivBEq κ] in
/-- A further operation after which the entry is still there, with the same key. -/
theorem StemsFrom.append {ops before after : List (Operation σ η κ ν)} {op later : Operation σ η κ ν}
    {key stored : κ} (h : StemsFrom ops m key stored before op after)
    (hc : (later.perform (finalState Operation.perform ops m)).state.contains key = true)
    (hlast : later.rekeys = true → later.brings? key = none) :
    StemsFrom (ops ++ [later]) m key stored before op (after ++ [later]) where
  split := by rw [h.split, List.append_assoc, List.cons_append]
  brought := h.brought
  origin := h.origin
  present := by
    intro c hmem
    rw [← List.cons_append, trace_append, ← finalState_append, ← h.split] at hmem
    -- the calls before the last one are those of the run that is extended
    rcases List.mem_append.mp hmem with hbefore | hnew
    · exact h.present c hbefore
    · obtain rfl := List.mem_singleton.mp hnew
      exact hc
  last := by
    intro o ho
    rcases List.mem_append.mp ho with hbefore | hnew
    · exact h.last o hbefore
    · exact List.mem_singleton.mp hnew ▸ hlast

/-- **Where a stored key stems from**, after a run in which no insertion fails to grow the table. -/
theorem Represents.exists_stemsFrom (h : m.Represents hashing policy within M)
    (hE : LawfulSlots σ hashing) {key stored : κ} (habsent : m.contains key = false)
    (ops : List (Operation σ η κ ν)) (hno : NoOverflow (trace Operation.perform ops m))
    (hstored : (finalState Operation.perform ops m).storedKey? key = some stored) :
    ∃ before op after, StemsFrom ops m key stored before op after := by
  -- by the last operation: it has brought the key, or has left the one that was there
  induction ops using List.reverseRecOn with
  | nil =>
      rw [h.contains_eq_isSome hE, show m.storedKey? key = some stored from hstored] at habsent
      contradiction
  | append_singleton ops op ih =>
      rw [trace_append] at hno
      rw [finalState_append] at hstored
      have hnoOps : NoOverflow (trace Operation.perform ops m) :=
        fun c hc => hno c (List.mem_append_left _ hc)
      have hnoOp := hno _ (List.mem_append_right _ List.mem_cons_self)
      obtain ⟨-, N, hN⟩ := exists_runs (fun op _ _ h => h.perform hE op) ops h hnoOps
      specialize ih hnoOps
      generalize hs : finalState Operation.perform ops m = s at hN hnoOp hstored ih
      change (op.perform s).state.storedKey? key = some stored at hstored
      obtain ⟨⟨N', hN'⟩, hafter⟩ := hN.storedKey?_perform hE op hnoOp
      have hc : (op.perform s).state.contains key = true := by
        rw [hN'.contains_eq_isSome hE, hstored]
        rfl
      rcases Operation.brings?_or_left ((hafter key hc).symm.trans hstored) with
        ⟨hbrings, horigin⟩ | ⟨hbefore, hlast⟩
      · refine ⟨ops, op, [], stemsFrom_last hbrings (horigin.imp_left fun hnone => ?_) (hs ▸ hc)⟩
        rw [hs, hN.contains_eq_isSome hE, hnone]
        rfl
      · obtain ⟨before, op', after, hstems⟩ := ih hbefore
        exact ⟨before, op', after ++ [op], hstems.append (hs ▸ hc) hlast⟩

end Represented

end ValueMap

/-! ### Letters without case -/

/-- A letter that is compared without regard to its case. -/
structure Letter where
  /-- The letter as it was written. -/
  char : Char

namespace Letter

/-- The letter in lower case. -/
def folded (l : Letter) : Char := l.char.toLower

instance : BEq Letter := ⟨fun a b => a.folded == b.folded⟩

instance : EquivBEq Letter where
  rfl {a} := beq_self_eq_true a.folded
  symm {a b} h := (BEq.symm h : (b.folded == a.folded) = true)
  trans {a b c} h h' := (BEq.trans (b := b.folded) h h' : (a.folded == c.folded) = true)

instance : Hasher Unit Letter := ⟨fun _ l => l.folded.toNat.toUInt64⟩

/-- Letters that are equal up to case have the same hash. -/
theorem hasher_lawful : Hasher.Lawful () Letter :=
  fun _ _ h => congrArg (fun c : Char => c.toNat.toUInt64) (eq_of_beq (α := Char) h)

theorem eq_some_of_char {l : Option Letter} {c : Char} (h : l.map char = some c) : l = some ⟨c⟩ := by
  obtain ⟨_, rfl, rfl⟩ := Option.map_eq_some_iff.mp h
  rfl

end Letter

/-! ### Maps from keys -/

namespace KeyMap

open ValueMap

/-- **Which of two equal keys a map stores.** Iteration, cursors and removal show the stored keys; an operation
leaves them, but for `compute` and `merge`; and after a run each goes back to where its entry was made, or to
the last of the two since then. -/
theorem storedKeys_of_reachable {η κ ν : Type} [Hasher η κ] [BEq κ] [EquivBEq κ] [BEq ν] {hasher : η}
    (hlawful : Hasher.Lawful hasher κ) {config : TableConfig} {policy : NullPolicy} {new : KeyMap η κ ν}
    (hnew : ofConfig config policy ⟨hasher⟩ = .ok new) :
    (∀ m, Reaches table Operation.perform new m →
      m.ShowsStoredKeys ∧
        ∀ op : Operation (Option (Bucket κ ν)) (Mixed η) κ ν,
          (op.perform m).result ≠ .error .capacityOverflow → m.KeepsStoredKeys op) ∧
    ∀ ops : List (Operation (Option (Bucket κ ν)) (Mixed η) κ ν),
      NoOverflow (trace Operation.perform ops new) →
        ∀ key stored, (finalState Operation.perform ops new).storedKey? key = some stored →
          ∃ before op after, StemsFrom ops new key stored before op after := by
  have hE : LawfulSlots (Option (Bucket κ ν)) (⟨hasher⟩ : Mixed η) := bucket_lawful hlawful
  have hstart : new.Represents ⟨hasher⟩ policy True {} := represents_of_ofConfig hE hnew
  constructor
  · intro m hm
    obtain ⟨M, hM⟩ := exists_of_reaches hE hnew hm
    exact ⟨hM.showsStoredKeys hE, fun op => hM.keepsStoredKeys hE op⟩
  · intro ops hno key stored
    -- at the start there are no keys, so each one has been brought by the run
    have habsent : new.contains key = false := by
      rw [hstart.contains_eq hE]
      rfl
    exact hstart.exists_stemsFrom hE habsent ops hno

/-- What stores, replaces or computes a value under `A` leaves the key `a` of the entry; what is merged under `B`
has the key `B` afterwards, although the entry was made with `b`. -/
theorem storedKeys_of_reachable_letters :
    let ops : List (Operation (Option (Bucket Letter Int32)) (Mixed Unit) Letter Int32) :=
      [.insert ⟨'a'⟩ 1, .insert ⟨'A'⟩ 2, .insertNull ⟨'A'⟩, .insertIfAbsent ⟨'A'⟩ 3, .replace ⟨'A'⟩ 4,
        .computeIfPresent ⟨'A'⟩ fun _ old => .answers (some (old + 1)), .insert ⟨'b'⟩ 5,
        .merge ⟨'B'⟩ 6 fun old new => .answers (some (old + new))]
    let new : KeyMap Unit Letter Int32 := .empty .nullable ⟨()⟩
    let m := finalState Operation.perform ops new
    let op : Operation (Option (Bucket Letter Int32)) (Mixed Unit) Letter Int32 := .replaceIf ⟨'A'⟩ 5 6
    Hasher.Lawful () Letter ∧ ofConfig {} .nullable ⟨()⟩ = .ok new ∧
      NoOverflow (trace Operation.perform ops new) ∧
      (m.entries.map fun e => (e.1.char, e.2)) = [('a', some 5), ('B', some 11)] ∧
      (op.perform m).result ≠ .error .capacityOverflow ∧ m.ShowsStoredKeys ∧ m.KeepsStoredKeys op ∧
      m.storedKey? ⟨'b'⟩ = some ⟨'B'⟩ ∧
      ∃ before op after, StemsFrom ops new ⟨'b'⟩ ⟨'B'⟩ before op after := by
  intro ops new m op
  have hnew : ofConfig {} .nullable ⟨()⟩ = .ok new := ofConfig_default _ _
  have hno : NoOverflow (trace Operation.perform ops new) := by decide +kernel
  have hop : (op.perform m).result ≠ .error .capacityOverflow := by decide +kernel
  have hstored : m.storedKey? ⟨'b'⟩ = some ⟨'B'⟩ := Letter.eq_some_of_char (by decide +kernel)
  obtain ⟨hreached, hrun⟩ := storedKeys_of_reachable Letter.hasher_lawful hnew
  obtain ⟨hshows, hkeeps⟩ := hreached m (.run hno)
  exact ⟨Letter.hasher_lawful, hnew, hno, by decide +kernel, hop, hshows, hkeeps op hop, hstored,
    hrun ops hno _ _ hstored⟩

/-- Computing or merging under a key that is equal to the stored one, but not the same, replaces it. -/
theorem compute_merge_replace_stored_key :
    let new : KeyMap Unit Letter Int32 := .empty .nonNull ⟨()⟩
    let m := finalState Operation.perform [.insert ⟨'a'⟩ 1] new
    let computed := (Operation.compute ⟨'A'⟩ fun _ _ => .answers (some 2)).perform m
    let merged := (Operation.merge ⟨'A'⟩ 2 fun _ value => .answers (some value)).perform m
    Hasher.Lawful () Letter ∧ ofConfig {} .nonNull ⟨()⟩ = .ok new ∧
      ((⟨'a'⟩ : Letter) == ⟨'A'⟩) = true ∧
      (m.entries.map fun e => (e.1.char, e.2)) = [('a', some 1)] ∧
      (computed.state.entries.map fun e => (e.1.char, e.2)) = [('A', some 2)] ∧
      (merged.state.entries.map fun e => (e.1.char, e.2)) = [('A', some 2)] ∧
      computed.state.storedKey? ⟨'a'⟩ ≠ m.storedKey? ⟨'a'⟩ ∧
      merged.state.storedKey? ⟨'a'⟩ ≠ m.storedKey? ⟨'a'⟩ := by
  intro new m computed merged
  have hbefore : m.storedKey? ⟨'a'⟩ = some ⟨'a'⟩ := Letter.eq_some_of_char (by decide +kernel)
  have hcomputed : computed.state.storedKey? ⟨'a'⟩ = some ⟨'A'⟩ :=
    Letter.eq_some_of_char (by decide +kernel)
  have hmerged : merged.state.storedKey? ⟨'a'⟩ = some ⟨'A'⟩ := Letter.eq_some_of_char (by decide +kernel)
  have hne : some (⟨'A'⟩ : Letter) ≠ some ⟨'a'⟩ := by simp
  exact ⟨Letter.hasher_lawful, ofConfig_default _ _, by decide +kernel, by decide +kernel,
    by decide +kernel, by decide +kernel, fun heq => hne (hcomputed.symm.trans (heq.trans hbefore)),
    fun heq => hne (hmerged.symm.trans (heq.trans hbefore))⟩

end KeyMap

end LinearProbing
