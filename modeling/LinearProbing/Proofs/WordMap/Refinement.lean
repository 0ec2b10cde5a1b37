import LinearProbing.Proofs.WordMap.Represents

/-!
# LinearProbing.Proofs.WordMap.Refinement

**A map of words refines a finite map.** Whatever is done to a new map, every call gives the result that it
gives on a plain finite map, and runs the functions of the caller with the same arguments; the number of
entries is the same after every step. Growth, compaction and the moves that deletion makes do not show, and
neither does it matter which value is the missing one: a key may well be equal to it.

The finite map goes through its entries in an order of its own (`Operation.Allows`), and this is all that is
left open: a predicate that always answers is asked about every entry once, in some order
(`sift_of_answers`).
-/

namespace LinearProbing

/-- A finite map whose keys are distinct, and which does not hold the missing value. -/
structure FiniteMap.Proper {κ ν : Type} (missing : ν) (m : FiniteMap κ ν) : Prop where
  distinct : m.entries.Pairwise fun a b => a.1 ≠ b.1
  ne_missing : ∀ e ∈ m.entries, e.2 ≠ missing

namespace WordMap

variable {κ ν : Type} [SignedWord κ] [SignedWord ν]

theorem Represents.proper {missing : ν} {within : Prop} {m : WordMap κ ν} {M : FiniteMap κ ν}
    (h : m.Represents missing within M) : M.Proper missing where
  distinct := h.table.distinct.imp ne_of_beq_false
  ne_missing e he := by
    obtain rfl := h.missing_eq
    rintro heq
    exact missing_notMem_values
      (List.mem_map.mpr ⟨e, h.table.entries.mem_iff.mpr he, heq⟩)

/-- **Refinement.** Every run of a map is a run of a finite map, as long as no insertion fails to grow the
table. -/
theorem run_refines_finiteMap {config : TableConfig} {missing : ν} {m : WordMap κ ν}
    (hm : ofConfig config missing = .ok m) (ops : List (Operation κ ν))
    (hno : NoOverflow (trace Operation.perform ops m)) :
    ∃ calls, Runs (Operation.Allows missing) ops {} calls ∧
      List.Forall₂
        (fun c d => c.result = d.result ∧ c.calls = d.calls ∧ c.state.len = d.state.size ∧
          d.state.Proper missing ∧ c.state.entries.Perm d.state.entries)
        (trace Operation.perform ops m) calls := by
  have hstart : m.Represents missing True {} := represents_of_ofConfig hm
  obtain ⟨⟨calls, hruns, hall⟩, -⟩ :=
    exists_runs (fun op _ _ h => h.perform op) ops hstart hno
  refine ⟨calls, hruns, hall.imp fun c d h => ⟨h.result, h.calls, ?_, h.state.proper, ?_⟩⟩
  · exact h.state.table.len_eq_length
  · have hentries := h.state.table.entries
    rw [← h.state.missing_eq] at hentries
    exact hentries

/-- A run with growth, with deletions from a run of occupied slots, and with computed missing values. The
key minus one is equal to the missing value. -/
theorem run_refines_finiteMap_growing :
    let ops : List (Operation Int32 Int32) :=
      [.insert (-1) 5, .get (-1), .insert 1 (-1), .insert 1 10, .insert 2 20, .insert 3 30,
        .insert 9 90, .insert 17 170, .erase 1, .compute 2 fun _ _ => .answers (-1),
        .merge 3 4 fun old new => .answers (old + new), .computeIfAbsent 7 fun _ => .panics,
        .retain fun key _ => .answers (key < 10), .compact, .clear]
    ofConfig {} (-1) = .ok (empty (-1) : WordMap Int32 Int32) ∧
      NoOverflow (trace Operation.perform ops (empty (-1))) ∧
        ∃ calls, Runs (Operation.Allows (-1)) ops {} calls ∧
          List.Forall₂
            (fun c d => c.result = d.result ∧ c.calls = d.calls ∧ c.state.len = d.state.size ∧
              d.state.Proper (-1) ∧ c.state.entries.Perm d.state.entries)
            (trace Operation.perform ops (empty (-1))) calls := by
  intro ops
  have hm : ofConfig {} (-1) = .ok (empty (-1) : WordMap Int32 Int32) := ofConfig_default _
  have hno : NoOverflow (trace Operation.perform ops (empty (-1))) := by decide +kernel
  exact ⟨hm, hno, run_refines_finiteMap hm ops hno⟩

end WordMap

end LinearProbing
