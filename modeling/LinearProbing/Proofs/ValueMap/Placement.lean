import LinearProbing.Hash.Choice
import LinearProbing.Hash.Polynomial
import LinearProbing.Proofs.ValueMap.Refinement

/-!
# LinearProbing.Proofs.ValueMap.Placement

**The hasher decides on slots, and on nothing else.** A map from keys refines a finite map from classes of
equal keys, whichever hasher it has. So the same calls on two maps with different hashers give the same
results and leave the same entries; only the slots differ, and with them the order in which the entries are
gone through (`Alike`).

Calls are the same if they have the same arguments (`SameCall`). A map that is copied may itself differ in
the places of its entries. A predicate on entries has to answer: how far a removal comes before a panic
depends on the order.
-/

namespace LinearProbing

namespace ValueMap

variable {σ η κ ν : Type} [EntrySlot σ κ ν] [BEq κ]

/-! ### The same calls -/

/-- The order in which the entries lie does not matter for an operation: it does not go through them step by
step, and a function that is shown each of them, or asked about it, does not panic. -/
def Operation.OrderFree : Operation σ η κ ν → Prop
  | .eraseWhere selects => ∃ p : κ × Option ν → Bool, ∀ e, selects e.1 e.2 = .answers (p e)
  | .retain keeps => ∃ p : κ × Option ν → Bool, ∀ e, keeps e.1 e.2 = .answers (p e)
  | .forEach f => ∀ e : κ × Option ν, f e.1 e.2 = .answers ()
  | .cursor _ => False
  | _ => True

/-- Two calls with the same arguments. -/
inductive SameCall : Operation σ η κ ν → Operation σ η κ ν → Prop where
  | same {op : Operation σ η κ ν} (orderFree : op.OrderFree) : SameCall op op
  /-- Two maps with the same entries are copied. -/
  | insertAll {other other' : ValueMap σ η κ ν}
      (distinct : (⟨other.entries⟩ : FiniteMap κ (Option ν)).Distinct)
      (perm : other.entries.Perm other'.entries) : SameCall (.insertAll other) (.insertAll other')

/-- Two calls on maps differ at most in the order of the entries. -/
structure Alike [KeyHash η κ] [BEq ν] (c d : OperationCall (ValueMap σ η κ ν) κ ν) : Prop where
  result : c.result = d.result
  calls : c.calls.Perm d.calls
  len : c.state.len = d.state.len
  entries : c.state.entries.Perm d.state.entries
  /-- The maps are equal, if every value is equal to itself. -/
  beq : (∀ v : ν, (v == v) = true) → (c.state == d.state) = true ∧ (d.state == c.state) = true

/-! ### The same calls on a finite map -/

/-- Two calls on finite maps differ at most in the order of the entries. -/
structure Spec.Alike {γ α : Type} (c d : Call (FiniteMap κ (Option ν)) γ α) : Prop where
  result : c.result = d.result
  calls : c.calls.Perm d.calls
  entries : c.state.entries.Perm d.state.entries

variable {M : FiniteMap κ (Option ν)} {order order' : List (κ × Option ν)}

omit [EntrySlot σ κ ν] [BEq κ] in
theorem Spec.Alike.refl {γ α : Type} (c : Call (FiniteMap κ (Option ν)) γ α) : Alike c c :=
  ⟨rfl, List.Perm.refl _, List.Perm.refl _⟩

omit [EntrySlot σ κ ν] [BEq κ] in
theorem Spec.Alike.map {γ α β : Type} {c d : Call (FiniteMap κ (Option ν)) γ α} (h : Alike c d)
    (f : α → β) : Alike (c.map f) (d.map f) :=
  ⟨congrArg (Except.map f) h.result, h.calls, h.entries⟩

omit [EntrySlot σ κ ν] [BEq κ] in
theorem Spec.Alike.mapCalls {γ δ α : Type} {c d : Call (FiniteMap κ (Option ν)) γ α} (h : Alike c d)
    (f : γ → δ) : Alike (c.mapCalls f) (d.mapCalls f) :=
  ⟨h.result, h.calls.map f, h.entries⟩

omit [EntrySlot σ κ ν] [BEq κ] in
/-- A predicate that always answers may go through the entries in any order. -/
theorem Spec.alike_eraseWhere {selects : κ → Option ν → Reply Bool} {p : κ × Option ν → Bool}
    (hp : ∀ e, selects e.1 e.2 = .answers (p e)) (horder : order.Perm order') :
    Alike (Spec.eraseWhere order selects) (Spec.eraseWhere order' selects) := by
  rw [Spec.eraseWhere, Spec.eraseWhere, sift_of_answers false fun e _ => hp e,
    sift_of_answers false fun e _ => hp e]
  exact
    { result := by simp [Call.within, Change.within, horder.any_eq]
      calls := horder
      entries := horder.filter _ }

variable [BEq ν]

/-- The same calls on a finite map differ at most in the order of the entries. -/
theorem SameCall.specify_alike [EquivBEq κ] {op op' : Operation σ η κ ν} (h : SameCall op op')
    (policy : NullPolicy) (hM : M.Distinct) (horder : order.Perm M.entries)
    (horder' : order'.Perm M.entries) :
    Spec.Alike (op.specify policy order M) (op'.specify policy order' M) := by
  have hboth : order.Perm order' := horder.trans horder'.symm
  cases h with
  | insertAll hdistinct hperm =>
      exact ⟨rfl, List.Perm.refl _, hM.foldl_insert_perm hdistinct hperm⟩
  | same hfree =>
      cases op with
      | eraseWhere selects =>
          obtain ⟨p, hp⟩ := hfree
          exact ((Spec.alike_eraseWhere hp hboth).mapCalls _).map _
      | retain keeps =>
          obtain ⟨p, hp⟩ := hfree
          have hnot : ∀ e : κ × Option ν, (keeps e.1 e.2).map not = .answers (! p e) := by
            intro e
            rw [hp e]
            rfl
          have halike : Spec.Alike
              (Spec.eraseWhere order fun key stored => (keeps key stored).map not)
              (Spec.eraseWhere order' fun key stored => (keeps key stored).map not) :=
            Spec.alike_eraseWhere hnot hboth
          exact ((halike.map _).mapCalls _).map _
      | forEach f =>
          have hshown : Spec.Alike (Call.forEach (fun e => f e.1 e.2) M order)
              (Call.forEach (fun e => f e.1 e.2) M order') := by
            rw [Call.forEach_of_answers hfree, Call.forEach_of_answers hfree]
            exact ⟨rfl, hboth, List.Perm.refl _⟩
          exact (hshown.mapCalls _).map _
      | cursor script => contradiction
      | _ => exact .refl _

/-! ### Two runs -/

variable [KeyHash η κ] [EquivBEq κ]
variable {hashing hashing' : η} {policy : NullPolicy} {within within' : Prop}
variable {m m' : ValueMap σ η κ ν}

/-- Maps that stand for the same finite map are equal. -/
theorem Represents.beq (h : m.Represents hashing policy within M)
    (h' : m'.Represents hashing' policy within' M) (hE' : LawfulSlots σ hashing')
    (hrefl : ∀ v : ν, (v == v) = true) : (m == m') = true := by
  have hlen : m.len = m'.len := h.table.len_eq_length.trans h'.table.len_eq_length.symm
  have hall : ∀ e ∈ m.entries, ((m'.lookup? e.1).map Prod.snd == some e.2) = true := by
    intro e he
    have hmem : e ∈ M.entries := h.table.entries.mem_iff.mp he
    rw [h'.lookup?_eq hE', h'.distinct.find?_eq hmem, Option.map_some]
    cases e.2 with
    | none => rfl
    | some v => exact hrefl v
  show (m.len == m'.len && m.entries.all _) = true
  rw [Bool.and_eq_true, beq_iff_eq, List.all_eq_true]
  exact ⟨hlen, hall⟩

/-- **The same calls on two maps with different hashers** give the same results and leave the same
entries. -/
theorem Represents.run_alike (hE : LawfulSlots σ hashing) (hE' : LawfulSlots σ hashing')
    (h : m.Represents hashing policy within M) (h' : m'.Represents hashing' policy within' M)
    {ops ops' : List (Operation σ η κ ν)} (hops : List.Forall₂ SameCall ops ops')
    (hno : NoOverflow (trace Operation.perform ops m))
    (hno' : NoOverflow (trace Operation.perform ops' m')) :
    List.Forall₂ Alike (trace Operation.perform ops m) (trace Operation.perform ops' m') := by
  induction hops generalizing m m' M with
  | nil => exact .nil
  | @cons op op' rest rest' hop _ ih =>
      obtain ⟨hfirst, hrest⟩ := List.forall_mem_cons.mp hno
      obtain ⟨hfirst', hrest'⟩ := List.forall_mem_cons.mp hno'
      obtain ⟨d, ⟨order, horder, rfl⟩, hagrees | ⟨hoverflow, -⟩⟩ := h.perform hE op
      case inr => exact absurd hoverflow hfirst
      obtain ⟨d', ⟨order', horder', rfl⟩, hagrees' | ⟨hoverflow', -⟩⟩ := h'.perform hE' op'
      case inr => exact absurd hoverflow' hfirst'
      obtain ⟨hresult, hcalls, hentries⟩ := hop.specify_alike policy h.distinct horder horder'
      -- the second map stands for the finite map of the first one
      have hstate := hagrees.state
      have hstate' := hagrees'.state.perm hentries.symm
      refine .cons ?_ (ih hstate hstate' hrest hrest')
      exact
        { result := hagrees.result.trans (hresult.trans hagrees'.result.symm)
          calls := by
            rw [hagrees.calls, hagrees'.calls]
            exact hcalls
          len := hstate.table.len_eq_length.trans hstate'.table.len_eq_length.symm
          entries := hstate.table.entries.trans hstate'.table.entries.symm
          beq := fun hrefl => ⟨hstate.beq hstate' hE' hrefl, hstate'.beq hstate hE hrefl⟩ }

end ValueMap

/-! ### Maps from keys -/

namespace KeyMap

open ValueMap

/-- **A map from keys refines a finite map** from classes of equal keys, whatever its hasher is, as long as no
insertion fails to grow the table. A second map with another hasher, on which the same calls are made, gives
the same results and holds the same entries after each of them. -/
theorem run_refines_keyClasses {η κ ν : Type} [Hasher η κ] [BEq κ] [EquivBEq κ] [BEq ν] {hasher : η}
    (hlawful : Hasher.Lawful hasher κ) {config : TableConfig} {policy : NullPolicy} {m : KeyMap η κ ν}
    (hm : ofConfig config policy ⟨hasher⟩ = .ok m)
    (ops : List (Operation (Option (Bucket κ ν)) (Mixed η) κ ν))
    (hno : NoOverflow (trace Operation.perform ops m)) :
    (∃ calls, Runs (Operation.Allows policy) ops {} calls ∧
      List.Forall₂ Matches (trace Operation.perform ops m) calls) ∧
    ∀ {hasher' : η}, Hasher.Lawful hasher' κ → ∀ {config' : TableConfig} {m' : KeyMap η κ ν},
      ofConfig config' policy ⟨hasher'⟩ = .ok m' →
      ∀ ops', List.Forall₂ SameCall ops ops' → NoOverflow (trace Operation.perform ops' m') →
        List.Forall₂ Alike (trace Operation.perform ops m) (trace Operation.perform ops' m') := by
  have hE : LawfulSlots (Option (Bucket κ ν)) (⟨hasher⟩ : Mixed η) := bucket_lawful hlawful
  have hstart : m.Represents ⟨hasher⟩ policy True {} := represents_of_ofConfig hE hm
  refine ⟨(hstart.run_matches hE hno).1, ?_⟩
  intro hasher' hlawful' config' m' hm' ops' hops hno'
  have hE' : LawfulSlots (Option (Bucket κ ν)) (⟨hasher'⟩ : Mixed η) := bucket_lawful hlawful'
  have hstart' : m'.Represents ⟨hasher'⟩ policy True {} := represents_of_ofConfig hE' hm'
  exact hstart.run_alike hE hE' hstart' hops hno hno'

/-- A run under a hasher that gives all keys the same hash and under one that does not. The maps that are
copied differ in their hashers too. -/
theorem run_refines_keyClasses_colliding :
    let poor := HasherChoice.constant 7
    let better := HasherChoice.byteSum
    let poorMap : KeyMap HasherChoice String Int32 := .empty .nullable ⟨poor⟩
    let betterMap : KeyMap HasherChoice String Int32 := .empty .nullable ⟨better⟩
    let source : List (Operation (Option (Bucket String Int32)) (Mixed HasherChoice) String Int32) :=
      [.insert "b" 5, .insert "x" 7]
    let ops : KeyMap HasherChoice String Int32 →
        List (Operation (Option (Bucket String Int32)) (Mixed HasherChoice) String Int32) :=
      fun other =>
        [.insert "a" 1, .insert "b" 2, .insertNull "c", .insertAll other,
          .merge "c" 4 (fun _ _ => .panics), .compute "d" (fun _ old => .answers (old.or (some 6))),
          .erase "a", .retain (fun _ stored => .answers (stored != some 5)), .eraseEntry "c"]
    let poorOps := ops (finalState Operation.perform source poorMap)
    let betterOps := ops (finalState Operation.perform source betterMap)
    Hasher.Lawful poor String ∧ Hasher.Lawful better String ∧
      ofConfig {} .nullable ⟨poor⟩ = .ok poorMap ∧ ofConfig {} .nullable ⟨better⟩ = .ok betterMap ∧
      NoOverflow (trace Operation.perform poorOps poorMap) ∧
      NoOverflow (trace Operation.perform betterOps betterMap) ∧
      List.Forall₂ SameCall poorOps betterOps ∧
      (∃ calls, Runs (Operation.Allows .nullable) poorOps {} calls ∧
        List.Forall₂ Matches (trace Operation.perform poorOps poorMap) calls) ∧
      List.Forall₂ Alike (trace Operation.perform poorOps poorMap)
        (trace Operation.perform betterOps betterMap) := by
  intro poor better poorMap betterMap source ops poorOps betterOps
  have hlawful : ∀ hasher : HasherChoice, Hasher.Lawful hasher String :=
    fun hasher a b h => by rw [eq_of_beq h]
  have hpoor : ofConfig {} .nullable ⟨poor⟩ = .ok poorMap := ofConfig_default _ _
  have hbetter : ofConfig {} .nullable ⟨better⟩ = .ok betterMap := ofConfig_default _ _
  have hno : NoOverflow (trace Operation.perform poorOps poorMap) := by decide +kernel
  have hno' : NoOverflow (trace Operation.perform betterOps betterMap) := by decide +kernel
  have hops : ∀ other other', SameCall (.insertAll other) (.insertAll other') →
      List.Forall₂ SameCall (ops other) (ops other') := by
    intro other other' hcopied
    have hretain : (Operation.retain fun (_ : String) (stored : Option Int32) =>
        .answers (stored != some 5) : Operation (Option (Bucket String Int32)) (Mixed HasherChoice)
          String Int32).OrderFree := ⟨fun e => e.2 != some 5, fun _ => rfl⟩
    refine .cons (.same trivial) (.cons (.same trivial) (.cons (.same trivial) (.cons hcopied ?_)))
    refine .cons (.same trivial) (.cons (.same trivial) (.cons (.same trivial) ?_))
    exact .cons (.same hretain) (.cons (.same trivial) .nil)
  have hsame : List.Forall₂ SameCall poorOps betterOps := by
    refine hops _ _ (.insertAll ?_ ?_)
    · rw [FiniteMap.Distinct]
      decide +kernel
    · decide +kernel
  obtain ⟨hruns, halike⟩ := run_refines_keyClasses (hlawful poor) hpoor poorOps hno
  exact ⟨hlawful poor, hlawful better, hpoor, hbetter, hno, hno', hsame, hruns,
    halike (hlawful better) hbetter betterOps hsame hno'⟩

end KeyMap

end LinearProbing
