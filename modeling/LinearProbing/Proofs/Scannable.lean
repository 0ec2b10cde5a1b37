import LinearProbing.Proofs.Sweep

/-!
# LinearProbing.Proofs.Scannable

**What it is to scan a container exactly.** `Scannable` names the parts of a container that a scan has to do
with. A scan is exact if cursors behave like walks along one fixed order of the contents (`ScansAlong`),
and removal by a predicate follows the same order and leaves what a cursor would leave (`SweepsAlong`).
Both follow from a simulation of cursors by walks.
-/

namespace LinearProbing

/-- The parts of a container that a scan has to do with. -/
structure Scannable (τ χ ε σ κ ν : Type) where
  layout : EntryLayout σ κ ν
  slots : τ → Array σ
  /-- What is produced for an entry in a slot. -/
  view : κ × ν → ε
  /-- What is produced after all entries in slots. -/
  last : τ → List ε
  contents : τ → List ε
  len : τ → Nat
  openCursor : τ → χ
  /-- The container under a cursor. -/
  close : χ → τ
  /-- The container without the scan that its table keeps. -/
  forget : τ → τ

namespace Scannable

variable {τ υ χ ε ω β σ κ ν : Type} [CursorInterface χ ε ω]

/-- The contents in the order of the slots downwards from where a scan begins. -/
def Downward (C : Scannable τ χ ε σ κ ν) (s : τ) (order : List ε) : Prop :=
  ∃ origin, IsOrigin C.layout.layout (C.slots s) origin ∧
    order = ((downward (C.slots s).size origin).filterMap (C.layout.entryAt? (C.slots s))).map C.view ++
      C.last s

/-- Cursors over a container behave like walks along a fixed order of what it holds. -/
structure ScansAlong (C : Scannable τ χ ε σ κ ν) (writes : ω → Except TableError (ε → Option ε)) (s : τ)
    (order : List ε) : Prop where
  /-- The order is that of the slots. -/
  downward : C.Downward s order
  /-- It has all that the container holds, each once. -/
  perm : order.Perm (C.contents s)
  /-- The container counts as many. -/
  length_eq : order.length = C.len s
  /-- A cursor produces them in turn, and then nothing more, whatever is removed or written meanwhile. -/
  produced : ∀ script : List (CursorAction ω),
    CursorAction.produced script (CursorInterface.runScript script (C.openCursor s)).1 =
      (List.range (CursorAction.nexts script)).map (order[·]?)
  /-- All its answers are those of a walk. -/
  answers : ∀ script : List (CursorAction ω),
    (CursorInterface.runScript script (C.openCursor s)).1 =
      (CursorInterface.runScript script ({ writes, ahead := order } : Walk ε ω)).1
  /-- The container is left with what the walk has not removed, as it was written. -/
  left : ∀ script : List (CursorAction ω),
    (C.contents (C.close (CursorInterface.runScript script (C.openCursor s)).2)).Perm
      (CursorInterface.runScript script ({ writes, ahead := order } : Walk ε ω)).2.contents

/-- Removal by a predicate goes along an order, and leaves what a cursor leaves that removes the same.
What the predicate answers is read by `removes`; `flag` says what becomes of the answer whether any was
removed. -/
structure SweepsAlong (C : Scannable τ χ ε σ κ ν) (sweep : (ε → Reply Bool) → τ → Call τ ε β)
    (removes : Reply Bool → Reply Bool) (flag : Bool → β) (s : τ) (order : List ε) : Prop where
  /-- The predicate is asked in this order, and what it selects is removed. -/
  agrees : ∀ p : ε → Reply Bool, (sweep p s).Agrees (fun u l => (C.contents u).Perm l)
    ((sift (fun e => removes (p e)) order false).map flag)
  /-- A cursor that removes the same leaves the same container, slot for slot. -/
  forget_eq : ∀ p : ε → Reply Bool,
    C.forget (C.close
      (CursorInterface.removeWhere (fun e => removes (p e)) order.length (C.openCursor s)).state) =
        C.forget (sweep p s).state
  /-- The predicate is asked about the same. -/
  calls_eq : ∀ p : ε → Reply Bool,
    (CursorInterface.removeWhere (fun e => removes (p e)) order.length (C.openCursor s)).calls =
      (sweep p s).calls
  /-- The one panics if the other does. -/
  result_eq : ∀ p : ε → Reply Bool,
    (CursorInterface.removeWhere (fun e => removes (p e)) order.length
      (C.openCursor s)).result.map (fun _ => ()) = (sweep p s).result.map fun _ => ()

variable {C : Scannable τ χ ε σ κ ν} {writes : ω → Except TableError (ε → Option ε)} {s : τ}
variable {order : List ε} {R : χ → Walk ε ω → Prop}

omit [CursorInterface χ ε ω] in
theorem downward_scanOrder
    (hv : ∃ v < (C.slots s).size, C.layout.layout.vacantAt (C.slots s) v = true) :
    C.Downward s ((C.layout.scanOrder (C.slots s)).map C.view ++ C.last s) := by
  obtain ⟨horigin, horder⟩ := EntryLayout.scanOrder_eq hv
  exact ⟨_, horigin, by rw [horder]⟩

/-- Cursors that are walks scan exactly. -/
theorem ScansAlong.of_follows (hfollows : CursorInterface.Follows R)
    (hopen : R (C.openCursor s) { writes, ahead := order })
    (hclose : ∀ {c w}, R c w → (C.contents (C.close c)).Perm w.contents)
    (hdownward : C.Downward s order) (hperm : order.Perm (C.contents s))
    (hlen : (C.contents s).length = C.len s) : C.ScansAlong writes s order where
  downward := hdownward
  perm := hperm
  length_eq := hperm.length_eq.trans hlen
  produced script := by
    rw [(hfollows.runScript script hopen).1]
    exact Walk.produced_runScript script _
  answers script := (hfollows.runScript script hopen).1
  left script := hclose (hfollows.runScript script hopen).2

/-- A cursor that is a walk ends the removal one by one like the removal along a list. -/
theorem removeWhere_agrees (hfollows : CursorInterface.Follows R)
    (hopen : R (C.openCursor s) { writes, ahead := order })
    (hclose : ∀ {c w}, R c w → (C.contents (C.close c)).Perm w.contents) (selects : ε → Reply Bool) :
    ((CursorInterface.removeWhere selects order.length (C.openCursor s)).map fun _ => ()).Agrees
      (fun c l => (C.contents (C.close c)).Perm l)
      ((sift selects order false).map fun _ => ()) := by
  have hcursor := (hfollows.removeWhere selects order.length hopen).map fun _ => ()
  have hwalk := Walk.removeWhere selects ({ writes, ahead := order } : Walk ε ω) false
  exact
    { result := hcursor.result.trans hwalk.result
      ends := hcursor.ends
      state := (hclose hcursor.state).trans hwalk.state
      calls := hcursor.calls.trans hwalk.calls }

theorem SweepsAlong.of_follows {sweep : (ε → Reply Bool) → τ → Call τ ε β}
    {removes : Reply Bool → Reply Bool} {flag : Bool → β} (hfollows : CursorInterface.Follows R)
    (hopen : R (C.openCursor s) { writes, ahead := order })
    (hclose : ∀ {c w}, R c w → (C.contents (C.close c)).Perm w.contents)
    (hagrees : ∀ p : ε → Reply Bool, (sweep p s).Agrees (fun u l => (C.contents u).Perm l)
      ((sift (fun e => removes (p e)) order false).map flag))
    (hforget : ∀ p : ε → Reply Bool,
      C.forget (C.close
        (CursorInterface.removeWhere (fun e => removes (p e)) order.length (C.openCursor s)).state) =
          C.forget (sweep p s).state) : C.SweepsAlong sweep removes flag s order where
  agrees := hagrees
  forget_eq := hforget
  calls_eq p := (removeWhere_agrees hfollows hopen hclose _).calls.trans (hagrees p).calls.symm
  result_eq p := by
    have hcursor := (removeWhere_agrees hfollows hopen hclose fun e => removes (p e)).result
    have hsweep := ((hagrees p).map fun _ => ()).result
    rw [Call.map_unit_map] at hsweep
    exact hcursor.trans hsweep.symm

/-- Keeping what a predicate answers is removing what it does not. -/
theorem SweepsAlong.retain {sweep : (ε → Reply Bool) → τ → Call τ ε Bool}
    (h : C.SweepsAlong sweep id id s order) :
    C.SweepsAlong (fun p s => (sweep (fun e => (p e).map not) s).map fun _ => ()) (·.map not)
      (fun _ => ()) s order where
  agrees p := by
    have hagrees := (h.agrees fun e => (p e).map not).map fun _ => ()
    rwa [Call.map_unit_map] at hagrees
  forget_eq p := h.forget_eq fun e => (p e).map not
  calls_eq p := h.calls_eq fun e => (p e).map not
  result_eq p := by
    refine (h.result_eq fun e => (p e).map not).trans ?_
    exact (congrArg (fun c => c.result) (Call.map_unit_map (sweep _ s) fun _ => ())).symm

end Scannable

end LinearProbing
