import LinearProbing.Proofs.Walk
import LinearProbing.Proofs.Wrapping

/-!
# LinearProbing.Proofs.Restoring.Runs

**Runs that concern one key.** What is to be shown of every container: whatever is done to a key that was
absent, once it is absent again nothing is left of it (`Restores`). Each operation of the run is asked to
concern the key alone, in the state that it meets (`Along`); a script of a cursor is, if it removes and writes
to nothing else (`CursorInterface.Confined`).
-/

namespace LinearProbing

/-- What a negated predicate selects, the predicate rejects. -/
theorem Reply.rejects_of_map_not {reply : Reply Bool} (h : reply.map not = .answers true) :
    reply = .answers false := by
  cases reply with
  | panics => cases h
  | answers kept =>
      cases kept with
      | true => cases h
      | false => rfl

/-! ### Scripts -/

namespace CursorInterface

variable {χ ε ω : Type} [CursorInterface χ ε ω]

/-- A script removes and writes to nothing but entries with a property. The entry that is written to is the
one that would be removed. -/
def Confined (P : ε → Prop) : List (CursorAction ω) → χ → Prop
  | [], _ => True
  | .next :: rest, c => Confined P rest (next c).2
  | .remove :: rest, c => (∀ e ∈ (remove c).1, P e) ∧ Confined P rest (remove c).2
  | .write value :: rest, c => (∀ e ∈ (remove c).1, P e) ∧ Confined P rest (write value c).2

/-- A confined script that ends with the removal of an entry. -/
def EndsWithRemoval (P : ε → Prop) (script : List (CursorAction ω)) (c : χ) : Prop :=
  ∃ before, script = before ++ [.remove] ∧ Confined P before c ∧
    ∃ e, (remove (runScript before c).2).1 = some e ∧ P e

/-- What the actions keep is kept by a confined script. -/
theorem Confined.runScript {P : ε → Prop} {R : χ → Prop} (hnext : ∀ c, R c → R (next c).2)
    (hremove : ∀ c, R c → (∀ e ∈ (remove c).1, P e) → R (remove c).2)
    (hwrite : ∀ value c, R c → (∀ e ∈ (remove c).1, P e) → R (write value c).2)
    {script : List (CursorAction ω)} {c : χ} (hscript : Confined P script c) (h : R c) :
    R (runScript script c).2 := by
  induction script generalizing c with
  | nil => exact h
  | cons action rest ih =>
      cases action with
      | next => exact ih hscript (hnext c h)
      | remove => exact ih hscript.2 (hremove c h hscript.1)
      | write value =>
          refine ih (c := (act (.write value) c).2) ?_ ?_
          · rw [state_act_write]
            exact hscript.2
          · rw [state_act_write]
            exact hwrite value c h hscript.1

theorem state_runScript_append (script rest : List (CursorAction ω)) (c : χ) :
    (runScript (script ++ rest) c).2 = (runScript rest (runScript script c).2).2 := by
  induction script generalizing c with
  | nil => rfl
  | cons action script ih => exact ih (act action c).2

end CursorInterface

/-! ### Runs -/

variable {τ υ ω χ γ δ α β κ μ : Type} {perform : ω → τ → Call τ γ α} {P : ω → τ → Prop} {R : τ → Prop} {s : τ}

/-- Something holds of every operation of a run and the state that it meets. -/
def Along (perform : ω → τ → Call τ γ α) (P : ω → τ → Prop) : List ω → τ → Prop
  | [], _ => True
  | op :: rest, s => P op s ∧ Along perform P rest (perform op s).state

theorem Along.kept {ops : List ω} (h : Along perform P ops s) (hs : R s)
    (hstep : ∀ op s, R s → P op s → R (perform op s).state) :
    R (finalState perform ops s) := by
  induction ops generalizing s with
  | nil => exact hs
  | cons op rest ih => exact ih h.2 (hstep op s hs h.1)

/-- What each call keeps, calls for the members of a list keep, one after the other. -/
theorem Change.state_forEach {step : τ → β → Change τ α} {l : List β} (hs : R s)
    (hstep : ∀ x ∈ l, ∀ s, R s → R (step s x).state) : R (Change.forEach step l s).state := by
  induction l generalizing s with
  | nil => exact hs
  | cons x rest ih =>
      have hfirst := hstep x List.mem_cons_self s hs
      rw [Change.forEach, Change.andThen]
      split
      · exact hfirst
      · exact ih hfirst fun y hy => hstep y (List.mem_cons_of_mem x hy)

/-- Whatever is done to a key that is absent from a container, and to nothing else, is undone when the key is
absent again: the container is then the same as before. -/
structure Restores (perform : ω → τ → Call τ γ α) (contains : τ → κ → Bool)
    (concerns removes : κ → ω → τ → Prop) (same : τ → τ → Prop) (s : τ) (key : κ) : Prop where
  /-- At the end of every run that concerns only the key, if it is absent then. -/
  absent : ∀ ops, Along perform (concerns key) ops s →
    contains (finalState perform ops s) key = false → same s (finalState perform ops s)
  /-- After every such run and one more operation that removes the key. -/
  removed : ∀ ops op, Along perform (concerns key) ops s → removes key op (finalState perform ops s) →
    same s (perform op (finalState perform ops s)).state

/-- It is enough to know what the operations keep that concern the key. -/
theorem Restores.of_kept {contains : τ → κ → Bool} {concerns removes : κ → ω → τ → Prop} {same : τ → τ → Prop}
    {key : κ} (hs : R s) (hkeeps : ∀ op u, R u → concerns key op u → R (perform op u).state)
    (habsent : ∀ u, R u → contains u key = false → same s u)
    (hremoved : ∀ op u, R u → removes key op u → same s (perform op u).state) :
    Restores perform contains concerns removes same s key where
  absent _ hops hlast := habsent _ (hops.kept hs hkeeps) hlast
  removed _ op hops hremoves := hremoved op _ (hops.kept hs hkeeps) hremoves

/-- This holds of every key that is absent from a container that was reached, if there is room for it. -/
def RestoresAbsent (reached : τ → Prop) (hasRoom : τ → κ → Prop) (perform : ω → τ → Call τ γ α)
    (contains : τ → κ → Bool) (concerns removes : κ → ω → τ → Prop) (same : τ → τ → Prop) : Prop :=
  ∀ {s key}, reached s → contains s key = false → hasRoom s key →
    Restores perform contains concerns removes same s key

section Wrapping

variable {perform' : χ → υ → Call υ δ β} {inner : τ → υ} {on : ω → τ → χ}
variable {contains : υ → μ → Bool} {concerns removes : μ → χ → υ → Prop} {same : υ → υ → Prop}

theorem Along.wrapped {P : χ → υ → Prop}
    (hwraps : ∀ op s, (perform op s).toChange.Wraps inner (perform' (on op s) (inner s)).toChange)
    {ops : List ω} (h : Along perform (fun op s => P (on op s) (inner s)) ops s) :
    ∃ ops', Along perform' P ops' (inner s) ∧
      inner (finalState perform ops s) = finalState perform' ops' (inner s) := by
  induction ops generalizing s with
  | nil => exact ⟨[], trivial, rfl⟩
  | cons op rest ih =>
      have hstate : inner (perform op s).state = (perform' (on op s) (inner s)).state := (hwraps op s).state
      obtain ⟨ops', halong, hfinal⟩ := ih h.2
      rw [hstate] at halong hfinal
      exact ⟨on op s :: ops', ⟨h.1, halong⟩, hfinal⟩

/-- **What is undone in the container inside is undone in the one around it.** -/
theorem Restores.wrapped (within : κ → μ) {key : κ}
    (hwraps : ∀ op s, (perform op s).toChange.Wraps inner (perform' (on op s) (inner s)).toChange)
    (h : Restores perform' contains concerns removes same (inner s) (within key)) :
    Restores perform (fun s key => contains (inner s) (within key))
      (fun key op s => concerns (within key) (on op s) (inner s))
      (fun key op s => removes (within key) (on op s) (inner s))
      (fun s s' => same (inner s) (inner s')) s key where
  absent ops hops habsent := by
    obtain ⟨ops', halong, hfinal⟩ := Along.wrapped hwraps hops
    rw [hfinal] at habsent ⊢
    exact h.absent ops' halong habsent
  removed ops op hops hremoves := by
    obtain ⟨ops', halong, hfinal⟩ := Along.wrapped hwraps hops
    have hstate : inner (perform op (finalState perform ops s)).state =
        (perform' (on op (finalState perform ops s)) (inner (finalState perform ops s))).state :=
      (hwraps op _).state
    rw [hstate]
    rw [hfinal] at hremoves ⊢
    exact h.removed ops' _ halong hremoves

end Wrapping

end LinearProbing
