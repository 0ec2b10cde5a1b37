import LinearProbing.Proofs.Operation
import LinearProbing.Proofs.Probing

/-!
# LinearProbing.Proofs.Wrapping

**Containers around other containers.** Some containers keep nothing but another one and pass their
operations on to it. A call *wraps* a call on the container inside if it leaves there what that call would
leave, and ends without a result exactly when that call does (`Call.Wraps`). If every call on a container
wraps one, then what it reaches is around something that the container inside reaches (`Reaches.wrapped`).
-/

namespace LinearProbing

variable {τ υ ω χ γ δ α β α' β' σ : Type} {inner : τ → υ}

/-! ### Calls -/

/-- A call does to the container inside what another call would do to it. -/
structure Change.Wraps (inner : τ → υ) (c : Change τ α) (d : Change υ β) : Prop where
  state : inner c.state = d.state
  failure : ∀ failure, c.result = .error failure ↔ d.result = .error failure

namespace Change.Wraps

variable {c : Change τ α} {d : Change υ β}

theorem within {f : υ → τ} (hf : ∀ s, inner (f s) = s) (d : Change υ α) :
    (d.within f).Wraps inner d :=
  ⟨hf _, fun _ => Iff.rfl⟩

theorem done {s : τ} {m : υ} (h : inner s = m) (value : α) (value' : β) :
    (Change.done s value).Wraps inner (Change.done m value') :=
  ⟨h, fun _ => ⟨nofun, nofun⟩⟩

/-- Both calls end in one way. -/
theorem of_error {failure : Failure} (hstate : inner c.state = d.state) (hc : c.result = .error failure)
    (hd : d.result = .error failure) : c.Wraps inner d :=
  ⟨hstate, fun _ => by rw [hc, hd, Except.error.injEq, Except.error.injEq]⟩

theorem map_left (h : c.Wraps inner d) (f : α → α') : (c.map f).Wraps inner d := by
  refine ⟨h.state, fun failure => Iff.trans ?_ (h.failure failure)⟩
  cases hresult : c.result <;> simp [Change.map, hresult, Except.map]

theorem map_right (h : c.Wraps inner d) (f : β → β') : c.Wraps inner (d.map f) := by
  refine ⟨h.state, fun failure => (h.failure failure).trans ?_⟩
  cases hresult : d.result <;> simp [Change.map, hresult, Except.map]

theorem map (h : c.Wraps inner d) (f : α → α') (g : β → β') : (c.map f).Wraps inner (d.map g) :=
  (h.map_left f).map_right g

/-- One call for each member of a list. -/
theorem forEach {ε ζ : Type} {step : τ → ε → Change τ α} {step' : υ → ζ → Change υ β} {g : ε → ζ}
    (hstep : ∀ s x, (step s x).Wraps inner (step' (inner s) (g x))) (l : List ε) (s : τ) :
    (Change.forEach step l s).Wraps inner (Change.forEach step' (l.map g) (inner s)) := by
  induction l generalizing s with
  | nil => exact .done rfl () ()
  | cons x rest ih =>
      obtain ⟨hstate, hfailure⟩ := hstep s x
      simp only [List.map_cons, Change.forEach, Change.andThen]
      cases hresult : (step s x).result with
      | error failure =>
          rw [(hfailure failure).mp hresult]
          exact ⟨hstate, fun _ => Iff.rfl⟩
      | ok value =>
          cases hresult' : (step' (inner s) (g x)).result with
          | error failure => exact absurd (hresult.symm.trans ((hfailure failure).mpr hresult')) (by simp)
          | ok value' =>
              obtain ⟨hrest, hrestFailure⟩ := ih (step s x).state
              rw [hstate] at hrest hrestFailure
              exact ⟨hrest, hrestFailure⟩

/-- Both calls make the same searches first. -/
theorem searching {s : τ} {m : υ} {c : Call τ γ α} {d : Call υ δ β}
    (h : c.toChange.Wraps inner d.toChange) (hs : inner s = m) (probes : List Probe) :
    (Call.searching probes s c).toChange.Wraps inner (Call.searching probes m d).toChange := by
  by_cases hmem : .endless ∈ probes
  · rw [Call.searching_of_mem hmem, Call.searching_of_mem hmem]
    exact .of_error hs rfl rfl
  · rwa [Call.searching_of_notMem hmem, Call.searching_of_notMem hmem]

/-- The call inside fails by itself if one of the searches never ends. -/
theorem searching_left {s : τ} {c : Call τ γ α} {probes : List Probe}
    (h : .endless ∉ probes → c.toChange.Wraps inner d)
    (hd : .endless ∈ probes → d.state = inner s ∧ d.result = .error .endlessSearch) :
    (Call.searching probes s c).toChange.Wraps inner d := by
  by_cases hmem : .endless ∈ probes
  · obtain ⟨hstate, hresult⟩ := hd hmem
    rw [Call.searching_of_mem hmem]
    exact .of_error hstate.symm rfl hresult
  · rw [Call.searching_of_notMem hmem]
    exact h hmem

theorem of_ok (h : c.Wraps inner d) {value : β} (hvalue : d.result = .ok value) :
    ∃ value, c.result = .ok value := by
  cases hresult : c.result with
  | ok value => exact ⟨value, rfl⟩
  | error failure =>
      exact absurd (hvalue.symm.trans ((h.failure failure).mp hresult)) (by simp)

end Change.Wraps

/-! ### Runs -/

variable {perform : ω → τ → Call τ γ α} {perform' : χ → υ → Call υ δ β}

/-- **A run is around a run of the container inside**, if each call is. -/
theorem exists_wrapped_run
    (hwraps : ∀ op s, ∃ op', (perform op s).toChange.Wraps inner (perform' op' (inner s)).toChange)
    (ops : List ω) (s : τ) (hno : NoOverflow (trace perform ops s)) :
    ∃ ops', inner (finalState perform ops s) = finalState perform' ops' (inner s) ∧
      NoOverflow (trace perform' ops' (inner s)) := by
  induction ops generalizing s with
  | nil => exact ⟨[], rfl, List.forall_mem_nil _⟩
  | cons op rest ih =>
      obtain ⟨op', hstate, hfailure⟩ := hwraps op s
      obtain ⟨ops', hfinal, hrest⟩ :=
        ih (perform op s).state fun c hc => hno c (List.mem_cons_of_mem _ hc)
      rw [hstate] at hfinal hrest
      refine ⟨op' :: ops', hfinal, List.forall_mem_cons.mpr ⟨?_, hrest⟩⟩
      exact fun hoverflow => hno _ List.mem_cons_self ((hfailure _).mpr hoverflow)

/-- **What a container reaches is around what the container inside reaches.** -/
theorem Reaches.wrapped {table : υ → Table σ}
    (hwraps : ∀ op s, ∃ op', (perform op s).toChange.Wraps inner (perform' op' (inner s)).toChange)
    {s reached : τ} (h : Reaches (fun s => table (inner s)) perform s reached) :
    Reaches table perform' (inner s) (inner reached) := by
  induction h with
  | run hno =>
      obtain ⟨ops', hfinal, hno'⟩ := exists_wrapped_run hwraps _ s hno
      rw [hfinal]
      exact .run hno'
  | @caught before op _ vacant ih =>
      obtain ⟨op', hstate, -⟩ := hwraps op before
      rw [hstate] at vacant ⊢
      exact ih.caught vacant

end LinearProbing
