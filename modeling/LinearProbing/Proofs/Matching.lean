import LinearProbing.Proofs.Operation
import LinearProbing.Proofs.Tracks

/-!
# LinearProbing.Proofs.Matching

**Two runs side by side.** Two calls on containers of one type *match* if they end alike, run the same
functions of the caller with the same arguments, report the same, and leave related containers
(`Call.Matches`). Unlike a call that tracks its specification, both may fail, in every way, if they do so
alike.

The lemmas follow the functions that calls are put together from, up to whole runs (`forall₂_matches`).
-/

namespace LinearProbing

variable {τ υ γ δ ω α β : Type} {R : τ → τ → Prop} {s t : τ}

/-- Two changes end alike, report the same, and leave related states. -/
structure Change.Matches (R : τ → τ → Prop) (c d : Change τ α) : Prop where
  result : c.result = d.result
  events : c.events = d.events
  state : R c.state d.state

/-- Two calls also run the same functions of the caller. -/
structure Call.Matches (R : τ → τ → Prop) (c d : Call τ γ α) : Prop
    extends c.toChange.Matches R d.toChange where
  calls : c.calls = d.calls

namespace Change.Matches

variable {c d : Change τ α}

theorem done (h : R s t) (value : α) : (Change.done s value).Matches R (.done t value) := ⟨rfl, rfl, h⟩

theorem fail (h : R s t) (failure : Failure) :
    (Change.fail s failure : Change τ α).Matches R (.fail t failure) := ⟨rfl, rfl, h⟩

theorem map (h : c.Matches R d) (f : α → β) : (c.map f).Matches R (d.map f) :=
  ⟨congrArg (Except.map f) h.result, h.events, h.state⟩

theorem within {R' : υ → υ → Prop} {f g : τ → υ} (h : c.Matches R d)
    (hR : ∀ {s t}, R s t → R' (f s) (g t)) : (c.within f).Matches R' (d.within g) :=
  ⟨h.result, h.events, hR h.state⟩

theorem andThen {next next' : τ → α → Change τ β} (h : c.Matches R d)
    (hnext : ∀ {s t} value, R s t → (next s value).Matches R (next' t value)) :
    (c.andThen next).Matches R (d.andThen next') := by
  obtain ⟨result, state, events⟩ := c
  obtain ⟨result', state', events'⟩ := d
  obtain ⟨rfl, rfl, hstate⟩ := h
  cases result with
  | error failure => exact ⟨rfl, rfl, hstate⟩
  | ok value =>
      have hsecond := hnext value hstate
      exact ⟨hsecond.result, congrArg (events ++ ·) hsecond.events, hsecond.state⟩

theorem forEach {step step' : τ → β → Change τ α} (l : List β) (h : R s t)
    (hstep : ∀ x ∈ l, ∀ {s t}, R s t → (step s x).Matches R (step' t x)) :
    (Change.forEach step l s).Matches R (Change.forEach step' l t) := by
  induction l generalizing s t with
  | nil => exact done h ()
  | cons x rest ih =>
      refine (hstep x List.mem_cons_self h).andThen fun _ hstate => ?_
      exact ih hstate fun y hy => hstep y (List.mem_cons_of_mem x hy)

theorem ite {p : Prop} [Decidable p] {c' d' : Change τ α} (h : p → c.Matches R d)
    (h' : ¬ p → c'.Matches R d') : (if p then c else c').Matches R (if p then d else d') := by
  split
  · next hp => exact h hp
  · next hp => exact h' hp

theorem quiet (h : c.Matches R d) : (Call.quiet c : Call τ γ α).Matches R (.quiet d) := ⟨h, rfl⟩

end Change.Matches

namespace Call.Matches

variable {c d : Call τ γ α}

theorem done {a b : α} (h : R s t) (hresult : a = b) :
    (Call.done s a : Call τ γ α).Matches R (.done t b) :=
  hresult ▸ (Change.Matches.done h a).quiet

theorem fail (h : R s t) (failure : Failure) :
    (Call.fail s failure : Call τ γ α).Matches R (.fail t failure) :=
  (Change.Matches.fail h failure).quiet

theorem map (h : c.Matches R d) (f : α → β) : (c.map f).Matches R (d.map f) :=
  ⟨h.toMatches.map f, h.calls⟩

theorem mapCalls (h : c.Matches R d) (f : γ → δ) : (c.mapCalls f).Matches R (d.mapCalls f) :=
  ⟨h.toMatches, congrArg (List.map f) h.calls⟩

theorem within {R' : υ → υ → Prop} {f g : τ → υ} (h : c.Matches R d)
    (hR : ∀ {s t}, R s t → R' (f s) (g t)) : (c.within f).Matches R' (d.within g) :=
  ⟨h.toMatches.within hR, h.calls⟩

theorem after (h : c.Matches R d) (arguments : γ) : (c.after arguments).Matches R (d.after arguments) :=
  ⟨h.toMatches, congrArg (List.cons arguments) h.calls⟩

/-- Both make the same searches first. -/
theorem searching (h : c.Matches R d) (hs : R s t) (probes : List Probe) :
    (Call.searching probes s c).Matches R (.searching probes t d) := by
  by_cases hmem : .endless ∈ probes
  · rw [Call.searching_of_mem hmem, Call.searching_of_mem hmem]
    exact fail hs .endlessSearch
  · rwa [Call.searching_of_notMem hmem, Call.searching_of_notMem hmem]

/-- Both show the members of a list to a function. -/
theorem forEach (h : R s t) (f : β → Reply Unit) (l : List β) :
    (Call.forEach f s l).Matches R (.forEach f t l) := by
  induction l with
  | nil => exact done h rfl
  | cons x rest ih =>
      rw [Call.forEach, Call.forEach]
      cases f x with
      | panics => exact (fail h .panicked).after x
      | answers => exact ih.after x

theorem run {arguments : γ} {reply : Reply β} {next next' : β → Change τ α} (h : R s t)
    (hnext : ∀ value, (next value).Matches R (next' value)) :
    (Call.run arguments reply s next).Matches R (.run arguments reply t next') := by
  cases reply with
  | panics => exact ⟨.fail h .panicked, rfl⟩
  | answers value => exact ⟨hnext value, rfl⟩

end Call.Matches

/-- **Runs from related states match each other** if single operations do. -/
theorem forall₂_matches {perform : ω → τ → Call τ γ α}
    (hstep : ∀ op {s t}, R s t → (perform op s).Matches R (perform op t)) (ops : List ω) (h : R s t) :
    List.Forall₂ (Call.Matches R) (trace perform ops s) (trace perform ops t) ∧
      R (finalState perform ops s) (finalState perform ops t) := by
  induction ops generalizing s t with
  | nil => exact ⟨.nil, h⟩
  | cons op rest ih =>
      have hfirst := hstep op h
      obtain ⟨hcalls, hfinal⟩ := ih hfirst.state
      exact ⟨.cons hfirst hcalls, hfinal⟩

end LinearProbing
