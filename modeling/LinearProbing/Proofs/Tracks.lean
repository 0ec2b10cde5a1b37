import LinearProbing.Outcome
import Mathlib.Data.List.Forall2

/-!
# LinearProbing.Proofs.Tracks

**Following a specification.** A call on a container *tracks* the same call on a simpler container, by
which it is specified, if it gives the same result, runs the same functions of the caller with the same
arguments in the same order, and leaves related states (`Call.Tracks`). One thing the specification does
not know: the container may be unable to grow. The call then ends with `Failure.capacityOverflow`, and
what holds of the container it leaves is a parameter (`broken`).

The lemmas follow the functions that calls are put together from. A whole run is a list of calls, each
on what the one before has left (`trace`); one call after the other, it tracks a run of the specification
(`exists_runs`).
-/

namespace LinearProbing

/-- A call ended with a result, or with a failure that specifications know. -/
def Ends {α : Type} (result : Except Failure α) : Prop :=
  ∀ failure, result = .error failure → failure ≠ .capacityOverflow ∧ failure ≠ .endlessSearch

theorem ends_ok {α : Type} (value : α) : Ends (.ok value) := nofun

theorem ends_refused {α : Type} (error : TableError) :
    Ends (.error (.refused error) : Except Failure α) := by
  rintro _ ⟨⟩
  exact ⟨nofun, nofun⟩

theorem ends_panicked {α : Type} : Ends (.error .panicked : Except Failure α) := by
  rintro _ ⟨⟩
  exact ⟨nofun, nofun⟩

/-- A result that is read through a function ends the same way. -/
theorem Ends.map {α β : Type} {result : Except Failure α} (h : Ends result) (f : α → β) :
    Ends (result.map f) := by
  cases result with
  | ok value => exact ends_ok (f value)
  | error failure =>
      rintro _ ⟨⟩
      exact h failure rfl

/-! ### Changes -/

namespace Change

variable {τ υ α β γ : Type} {R : τ → υ → Prop} {broken : τ → Prop}

/-- Two changes end alike and leave related states. -/
structure Agrees (R : τ → υ → Prop) (c : Change τ α) (d : Change υ α) : Prop where
  result : c.result = d.result
  /-- The call ended as a specified one may. -/
  ends : Ends c.result
  state : R c.state d.state

/-- Two changes with the same result agree if they leave related states. -/
theorem Agrees.of_ok {c : Change τ α} {d : Change υ α} {value : α} (hc : c.result = .ok value)
    (hd : d.result = .ok value) (h : R c.state d.state) : c.Agrees R d :=
  ⟨hc.trans hd.symm, hc ▸ ends_ok value, h⟩

/-- A change agrees with its specification, or the container could not grow. -/
def Tracks (R : τ → υ → Prop) (broken : τ → Prop) (c : Change τ α) (d : Change υ α) : Prop :=
  c.Agrees R d ∨ (c.result = .error .capacityOverflow ∧ broken c.state)

/-- Answers agree in related states. -/
theorem Tracks.done {s : τ} {m : υ} (h : R s m) (value : α) :
    Tracks R broken (.done s value) (.done m value) :=
  Or.inl ⟨rfl, ends_ok value, h⟩

/-- A refusal is specified with its error. -/
theorem Tracks.refused {s : τ} {m : υ} (h : R s m) (error : TableError) :
    Tracks R broken (.fail s (.refused error) : Change τ α) (.fail m (.refused error)) :=
  Or.inl ⟨rfl, ends_refused error, h⟩

/-- What is specified may be left in another form. -/
theorem Tracks.restate {c : Change τ α} {m m' : υ} {value : α} (h : Tracks R broken c (.done m value))
    (hR : ∀ s, R s m → R s m') : Tracks R broken c (.done m' value) :=
  h.imp_left fun hagrees => ⟨hagrees.result, hagrees.ends, hR _ hagrees.state⟩

/-- A change that tracks one that succeeds does so itself, or the table cannot grow. -/
theorem Tracks.succeeds {c : Change τ α} {m : υ} {value : α} (h : Tracks R broken c (.done m value))
    (hno : c.result ≠ .error .capacityOverflow) : c.result = .ok value ∧ R c.state m := by
  rcases h with hagrees | ⟨hoverflow, -⟩
  · exact ⟨hagrees.result, hagrees.state⟩
  · exact absurd hoverflow hno

/-- Both results are read through one function. -/
theorem Tracks.map {c : Change τ α} {d : Change υ α} (h : Tracks R broken c d) (f : α → β) :
    Tracks R broken (c.map f) (d.map f) := by
  rcases h with ⟨hresult, hends, hstate⟩ | ⟨hresult, hstate⟩
  · exact Or.inl ⟨congrArg (Except.map f) hresult, hends.map f, hstate⟩
  · exact Or.inr ⟨congrArg (Except.map f) hresult, hstate⟩

/-- Reading a result through a function does not hide a failure, and makes none. -/
theorem map_eq_error_iff {c : Change τ α} {f : α → β} {failure : Failure} :
    (c.map f).result = .error failure ↔ c.result = .error failure := by
  rw [Change.map]
  cases c.result <;> simp [Except.map]

/-- Both changes seen from containers around the ones that they changed. -/
theorem Tracks.within {c : Change τ α} {d : Change υ α} (h : Tracks R broken c d) {τ' υ' : Type}
    {R' : τ' → υ' → Prop} {broken' : τ' → Prop} {f : τ → τ'} {g : υ → υ'}
    (hR : ∀ s m, R s m → R' (f s) (g m)) (hbroken : ∀ s, broken s → broken' (f s)) :
    Tracks R' broken' (c.within f) (d.within g) :=
  h.imp (fun hagrees => ⟨hagrees.result, hagrees.ends, hR _ _ hagrees.state⟩)
    fun hoverflow => ⟨hoverflow.1, hbroken _ hoverflow.2⟩

/-- What is specified may be seen from outside, too, if it is known how the states are related there. -/
theorem Tracks.of_within {υ' τ' : Type} {c : Change τ α} {d : Change υ' α} {f : τ → τ'} {g : υ' → υ}
    {R' : τ' → υ' → Prop} {broken' : τ' → Prop} (h : Tracks R broken c (d.within g))
    (hR : ∀ s m, R s (g m) → R' (f s) m) (hbroken : ∀ s, broken s → broken' (f s)) :
    Tracks R' broken' (c.within f) d :=
  h.imp (fun hagrees => ⟨hagrees.result, hagrees.ends, hR _ _ hagrees.state⟩)
    fun hoverflow => ⟨hoverflow.1, hbroken _ hoverflow.2⟩

/-- **Calls one after the other** agree if each does; the second is not made after a failure. -/
theorem Tracks.andThen {c : Change τ α} {d : Change υ α} {next : τ → α → Change τ β}
    {next' : υ → α → Change υ β} (h : Tracks R broken c d)
    (hnext : ∀ value, R c.state d.state → c.result = .ok value →
      Tracks R broken (next c.state value) (next' d.state value)) :
    Tracks R broken (c.andThen next) (d.andThen next') := by
  rcases h with ⟨hresult, hends, hstate⟩ | ⟨hresult, hstate⟩
  · -- the second call is made only where the first one ended with a value
    cases hc : c.result with
    | ok value =>
        have hd : d.result = .ok value := hresult.symm.trans hc
        simp only [Change.andThen, hc, hd]
        rcases hnext value hstate hc with ⟨hresult', hends', hstate'⟩ | hoverflow
        · exact Or.inl ⟨hresult', hends', hstate'⟩
        · exact Or.inr hoverflow
    | error failure =>
        have hd : d.result = .error failure := hresult.symm.trans hc
        simp only [Change.andThen, hc, hd]
        refine Or.inl ⟨rfl, ?_, hstate⟩
        rintro _ ⟨⟩
        exact hends failure hc
  · refine Or.inr ?_
    simp only [Change.andThen, hresult]
    exact ⟨trivial, hstate⟩

/-- One call for each member of a list tracks its specification if each single one does. -/
theorem Tracks.forEach {step : τ → β → Change τ α} {step' : υ → β → Change υ α} {l : List β} {s : τ}
    {m : υ} (h : R s m) (hstep : ∀ x ∈ l, ∀ {s m}, R s m → Tracks R broken (step s x) (step' m x)) :
    Tracks R broken (Change.forEach step l s) (Change.forEach step' l m) := by
  induction l generalizing s m with
  | nil => exact .done h ()
  | cons x rest ih =>
      refine (hstep x List.mem_cons_self h).andThen ?_
      intro _ hstate _
      exact ih hstate fun y hy => hstep y (List.mem_cons_of_mem x hy)

/-- Calls that cannot fail, one after the other. -/
theorem forEach_done {f : τ → β → τ} {result : τ → β → α} (l : List β) (s : τ) :
    Change.forEach (fun s x => .done (f s x) (result s x)) l s = .done (l.foldl f s) () := by
  induction l generalizing s with
  | nil => rfl
  | cons x rest ih =>
      rw [Change.forEach, List.foldl_cons]
      exact ih _

/-- If one of several calls fails, those before it have succeeded. -/
theorem exists_failed {step : τ → β → Change τ α} {l : List β} {s : τ} {failure : Failure}
    (h : (Change.forEach step l s).result = .error failure) :
    ∃ before x after, l = before ++ x :: after ∧ (Change.forEach step before s).result = .ok () ∧
      (step (Change.forEach step before s).state x).result = .error failure := by
  induction l generalizing s with
  | nil => cases h
  | cons x rest ih =>
      -- the first step fails, or the failure is in the rest
      cases hfirst : (step s x).result with
      | error cause =>
          simp only [Change.forEach, Change.andThen, hfirst] at h
          obtain rfl := Except.error.inj h
          exact ⟨[], x, rest, rfl, rfl, hfirst⟩
      | ok value =>
          simp only [Change.forEach, Change.andThen, hfirst] at h
          obtain ⟨before, y, after, rfl, hbefore, hfailed⟩ := ih h
          refine ⟨x :: before, y, after, rfl, ?_, ?_⟩ <;>
            simp only [Change.forEach, Change.andThen, hfirst, hbefore, hfailed]

end Change

/-! ### Calls -/

namespace Call

variable {τ υ α β γ δ : Type} {R : τ → υ → Prop} {broken : τ → Prop}

/-- Two calls end alike, run the same functions of the caller and leave related states. -/
structure Agrees (R : τ → υ → Prop) (c : Call τ γ α) (d : Call υ γ α) : Prop
    extends c.toChange.Agrees R d.toChange where
  calls : c.calls = d.calls

/-- A call agrees with its specification, or the container could not grow. -/
def Tracks (R : τ → υ → Prop) (broken : τ → Prop) (c : Call τ γ α) (d : Call υ γ α) : Prop :=
  c.Agrees R d ∨ (c.result = .error .capacityOverflow ∧ broken c.state)

/-- A function of the caller is run, and what it leaves is seen from the container around. -/
theorem within_run (f : τ → υ) (arguments : γ) (reply : Reply β) (left : τ) (next : β → Change τ α) :
    (run arguments reply left next).within f =
      run arguments reply (f left) fun value => (next value).within f := by
  cases reply <;> rfl

/-- Reading the arguments of a call through a function. -/
theorem mapCalls_run (f : γ → δ) (arguments : γ) (reply : Reply β) (left : τ)
    (next : β → Change τ α) :
    (run arguments reply left next).mapCalls f = run (f arguments) reply left next := by
  cases reply <;> rfl

/-- What holds after a panic, and of what a function of the caller makes, holds of what a call leaves. -/
theorem state_run {P : τ → Prop} {arguments : γ} {reply : Reply β} {left : τ}
    {next : β → Change τ α} (hleft : P left) (hnext : ∀ value, P (next value).state) :
    P (run arguments reply left next).state := by
  cases reply with
  | panics => exact hleft
  | answers value => exact hnext value

/-- Showing the members of a list to a function leaves the state alone. -/
theorem state_forEach (f : β → Reply Unit) (s : τ) (l : List β) : (forEach f s l).state = s := by
  induction l with
  | nil => rfl
  | cons x rest ih =>
      rw [forEach]
      cases f x with
      | panics => rfl
      | answers => exact ih

/-- Nothing is reported while the members of a list are shown. -/
theorem events_forEach (f : β → Reply Unit) (s : τ) (l : List β) : (forEach f s l).events = [] := by
  induction l with
  | nil => rfl
  | cons x rest ih =>
      rw [forEach]
      cases f x with
      | panics => rfl
      | answers => exact ih

/-- Showing the members of a list is the same for a container around the one at hand. -/
theorem within_forEach (g : τ → υ) (f : β → Reply Unit) (s : τ) (l : List β) :
    (forEach f s l).within g = forEach f (g s) l := by
  induction l with
  | nil => rfl
  | cons x rest ih =>
      rw [forEach, forEach, ← ih]
      cases f x <;> rfl

/-- A function that never panics is called with all members of the list. -/
theorem forEach_of_answers {f : β → Reply Unit} (hf : ∀ x, f x = .answers ()) (s : τ) (l : List β) :
    forEach f s l = { toChange := .done s (), calls := l } := by
  induction l with
  | nil => rfl
  | cons x rest ih =>
      rw [forEach, hf x, ih]
      rfl

theorem Agrees.done {s : τ} {m : υ} (h : R s m) (value : α) :
    (Call.done s value : Call τ γ α).Agrees R (.done m value) :=
  ⟨⟨rfl, ends_ok value, h⟩, rfl⟩

/-- A panic of a function of the caller is specified too. -/
theorem Agrees.panicked {s : τ} {m : υ} (h : R s m) :
    (Call.fail s .panicked : Call τ γ α).Agrees R (.fail m .panicked) :=
  ⟨⟨rfl, ends_panicked, h⟩, rfl⟩

/-- Both run a function of the caller with the same arguments first. -/
theorem Agrees.after {c : Call τ γ α} {d : Call υ γ α} (h : c.Agrees R d) (arguments : γ) :
    (c.after arguments).Agrees R (d.after arguments) :=
  ⟨h.toAgrees, congrArg (List.cons arguments) h.calls⟩

/-- Both show the members of a list to a function. -/
theorem Agrees.forEach {s : τ} {m : υ} (h : R s m) (f : β → Reply Unit) (l : List β) :
    (Call.forEach f s l : Call τ β Unit).Agrees R (.forEach f m l) := by
  induction l with
  | nil => exact .done h ()
  | cons x rest ih =>
      rw [Call.forEach, Call.forEach]
      cases f x with
      | panics => exact (Agrees.panicked h).after x
      | answers => exact ih.after x

/-- Both calls seen from containers around the ones that they changed. -/
theorem Agrees.within {c : Call τ γ α} {d : Call υ γ α} (h : c.Agrees R d) {τ' υ' : Type}
    {R' : τ' → υ' → Prop} {f : τ → τ'} {g : υ → υ'} (hR : ∀ s m, R s m → R' (f s) (g m)) :
    (c.within f).Agrees R' (d.within g) :=
  ⟨⟨h.result, h.ends, hR _ _ h.state⟩, h.calls⟩

theorem Agrees.map {c : Call τ γ α} {d : Call υ γ α} (h : c.Agrees R d) (f : α → β) :
    (c.map f).Agrees R (d.map f) :=
  ⟨⟨congrArg (Except.map f) h.result, h.ends.map f, h.state⟩, h.calls⟩

/-- Agreement for a weaker relation of the states. -/
theorem Agrees.imp {c : Call τ γ α} {d : Call υ γ α} {R' : τ → υ → Prop} (h : c.Agrees R d)
    (hR : ∀ s m, R s m → R' s m) : c.Agrees R' d :=
  ⟨⟨h.result, h.ends, hR _ _ h.state⟩, h.calls⟩

theorem Agrees.mapCalls {c : Call τ γ α} {d : Call υ γ α} (h : c.Agrees R d) (f : γ → δ) :
    (c.mapCalls f).Agrees R (d.mapCalls f) :=
  ⟨h.toAgrees, congrArg (List.map f) h.calls⟩

theorem Tracks.quiet {c : Change τ α} {d : Change υ α} (h : c.Tracks R broken d) :
    Tracks R broken (.quiet c : Call τ γ α) (.quiet d) :=
  h.imp_left fun hagrees => ⟨hagrees, rfl⟩

theorem Tracks.done {s : τ} {m : υ} (h : R s m) (value : α) :
    Tracks R broken (.done s value : Call τ γ α) (.done m value) :=
  Or.inl (.done h value)

theorem Tracks.refused {s : τ} {m : υ} (h : R s m) (error : TableError) :
    Tracks R broken (.fail s (.refused error) : Call τ γ α) (.fail m (.refused error)) :=
  .quiet (.refused h error)

/-- **A function of the caller is run by both.** What its panic leaves is specified as well. -/
theorem Tracks.run {arguments : γ} {reply : Reply β} {s : τ} {m : υ} {next : β → Change τ α}
    {next' : β → Change υ α} (hbroken : R s m)
    (hnext : ∀ value, reply = .answers value → (next value).Tracks R broken (next' value)) :
    Tracks R broken (.run arguments reply s next) (.run arguments reply m next') := by
  cases reply with
  | panics => exact Or.inl ((Agrees.panicked hbroken).after arguments)
  | answers value => exact (hnext value rfl).imp_left fun hagrees => ⟨hagrees, rfl⟩

theorem Tracks.map {c : Call τ γ α} {d : Call υ γ α} (h : Tracks R broken c d) (f : α → β) :
    Tracks R broken (c.map f) (d.map f) := by
  rcases h with hagrees | ⟨hresult, hstate⟩
  · exact Or.inl (hagrees.map f)
  · exact Or.inr ⟨congrArg (Except.map f) hresult, hstate⟩

/-- Both calls seen from containers around the ones that they changed. -/
theorem Tracks.within {c : Call τ γ α} {d : Call υ γ α} (h : Tracks R broken c d) {τ' υ' : Type}
    {R' : τ' → υ' → Prop} {broken' : τ' → Prop} {f : τ → τ'} {g : υ → υ'}
    (hR : ∀ s m, R s m → R' (f s) (g m)) (hbroken : ∀ s, broken s → broken' (f s)) :
    Tracks R' broken' (c.within f) (d.within g) :=
  h.imp (fun hagrees => hagrees.within hR) fun hoverflow => ⟨hoverflow.1, hbroken _ hoverflow.2⟩

/-- What is specified may be seen from outside, too, if it is known how the states are related there. -/
theorem Tracks.of_within {υ' τ' : Type} {c : Call τ γ α} {d : Call υ' γ α} {f : τ → τ'} {g : υ' → υ}
    {R' : τ' → υ' → Prop} {broken' : τ' → Prop} (h : Tracks R broken c (d.within g))
    (hR : ∀ s m, R s (g m) → R' (f s) m) (hbroken : ∀ s, broken s → broken' (f s)) :
    Tracks R' broken' (c.within f) d :=
  h.imp (fun hagrees => ⟨⟨hagrees.result, hagrees.ends, hR _ _ hagrees.state⟩, hagrees.calls⟩)
    fun hoverflow => ⟨hoverflow.1, hbroken _ hoverflow.2⟩

/-- What is said of a call holds of the change that it makes. -/
theorem Tracks.toChange {c : Call τ γ α} {d : Call υ γ α} (h : Tracks R broken c d) :
    Change.Tracks R broken c.toChange d.toChange :=
  h.imp_left fun hagrees => hagrees.toAgrees

theorem Tracks.mapCalls {c : Call τ γ α} {d : Call υ γ α} (h : Tracks R broken c d) (f : γ → δ) :
    Tracks R broken (c.mapCalls f) (d.mapCalls f) :=
  h.imp_left fun hagrees => hagrees.mapCalls f

end Call

/-! ### Runs -/

variable {τ υ ω γ α : Type}

/-- The calls of a run: each operation is performed on what the one before has left, which may have
failed. -/
def trace (perform : ω → τ → Call τ γ α) : List ω → τ → List (Call τ γ α)
  | [], _ => []
  | op :: rest, s => perform op s :: trace perform rest (perform op s).state

/-- What a run leaves. -/
def finalState (perform : ω → τ → Call τ γ α) : List ω → τ → τ
  | [], s => s
  | op :: rest, s => finalState perform rest (perform op s).state

/-- A run in two parts. -/
theorem trace_append (perform : ω → τ → Call τ γ α) (ops ops' : List ω) (s : τ) :
    trace perform (ops ++ ops') s =
      trace perform ops s ++ trace perform ops' (finalState perform ops s) := by
  induction ops generalizing s with
  | nil => rfl
  | cons op rest ih => exact congrArg (perform op s :: ·) (ih _)

/-- The state after a run in two parts. -/
theorem finalState_append (perform : ω → τ → Call τ γ α) (ops ops' : List ω) (s : τ) :
    finalState perform (ops ++ ops') s = finalState perform ops' (finalState perform ops s) := by
  induction ops generalizing s with
  | nil => rfl
  | cons op rest ih => exact ih _

/-- No call of a run failed to grow a table. -/
def NoOverflow (calls : List (Call τ γ α)) : Prop :=
  ∀ c ∈ calls, c.result ≠ .error .capacityOverflow

instance {α : Type} (result : Except Failure α) (failure : Failure) : Decidable (result = .error failure) :=
  match result with
  | .ok _ => isFalse nofun
  | .error other => decidable_of_iff (other = failure) (by simp)

instance (calls : List (Call τ γ α)) : Decidable (NoOverflow calls) :=
  inferInstanceAs (Decidable (∀ c ∈ calls, c.result ≠ .error .capacityOverflow))

/-- A run up to the first call that fails to grow a table, and the rest of it. -/
theorem exists_served (perform : ω → τ → Call τ γ α) (ops : List ω) (s : τ) :
    ∃ served unserved, ops = served ++ unserved ∧ NoOverflow (trace perform served s) ∧
      ∀ op rest, unserved = op :: rest →
        (perform op (finalState perform served s)).result = .error .capacityOverflow := by
  induction ops generalizing s with
  | nil => exact ⟨[], [], rfl, nofun, nofun⟩
  | cons op rest ih =>
      by_cases hoverflow : (perform op s).result = .error .capacityOverflow
      · refine ⟨[], op :: rest, rfl, nofun, ?_⟩
        rintro _ _ ⟨⟩
        exact hoverflow
      · obtain ⟨served, unserved, rfl, hno, hfirst⟩ := ih (perform op s).state
        exact ⟨op :: served, unserved, rfl, List.forall_mem_cons.mpr ⟨hoverflow, hno⟩, hfirst⟩

/-- The runs of a specification, which may allow an operation to end in several ways. -/
inductive Runs (allows : ω → υ → Call υ γ α → Prop) : List ω → υ → List (Call υ γ α) → Prop
  | nil {m : υ} : Runs allows [] m []
  | cons {op : ω} {rest : List ω} {m : υ} {d : Call υ γ α} {calls : List (Call υ γ α)}
      (first : allows op m d) (others : Runs allows rest d.state calls) :
      Runs allows (op :: rest) m (d :: calls)

/-- A run of a specification is one of another that allows as much for the operations of the run. -/
theorem Runs.imp {allows allows' : ω → υ → Call υ γ α → Prop} {ops : List ω} {m : υ}
    {calls : List (Call υ γ α)} (h : Runs allows ops m calls)
    (himp : ∀ op ∈ ops, ∀ m d, allows op m d → allows' op m d) : Runs allows' ops m calls := by
  induction h with
  | nil => exact .nil
  | cons first _ ih =>
      obtain ⟨hfirst, hrest⟩ := List.forall_mem_cons.mp himp
      exact .cons (hfirst _ _ first) (ih hrest)

/-- **A run tracks a run of the specification**, if each single operation does and no call fails to
grow a table. -/
theorem exists_runs {R : τ → υ → Prop} {broken : τ → Prop} {perform : ω → τ → Call τ γ α}
    {allows : ω → υ → Call υ γ α → Prop}
    (hstep : ∀ op {s m}, R s m → ∃ d, allows op m d ∧ (perform op s).Tracks R broken d)
    (ops : List ω) {s : τ} {m : υ} (h : R s m) (hno : NoOverflow (trace perform ops s)) :
    (∃ calls, Runs allows ops m calls ∧
      List.Forall₂ (Call.Agrees R) (trace perform ops s) calls) ∧
    ∃ m', R (finalState perform ops s) m' := by
  induction ops generalizing s m with
  | nil => exact ⟨⟨[], .nil, .nil⟩, m, h⟩
  | cons op rest ih =>
      obtain ⟨d, hallowed, hagrees | ⟨hoverflow, -⟩⟩ := hstep op h
      · obtain ⟨⟨calls, hruns, hall⟩, hfinal⟩ :=
          ih hagrees.state fun c hc => hno c (List.mem_cons_of_mem _ hc)
        exact ⟨⟨d :: calls, .cons hallowed hruns, .cons hagrees hall⟩, hfinal⟩
      · exact absurd hoverflow (hno _ List.mem_cons_self)

end LinearProbing
