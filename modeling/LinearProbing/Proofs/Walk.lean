import LinearProbing.Cursor
import LinearProbing.Proofs.Represents
import LinearProbing.Proofs.Scan
import LinearProbing.Proofs.Tracks

/-!
# LinearProbing.Proofs.Walk

**Cursors as walks along a list.** A cursor over a table behaves like one over a fixed list of entries
(`Walk`): it takes them one after the other, and what is removed or written concerns only the entry taken
last. That the table moves entries while the cursor goes on does not show.

* `Table.Scanning` relates a cursor over a table to the entries ahead of it, the current one, and those
  behind; `next`, `remove` and `write` keep the relation.
* `CursorInterface.Follows` carries such steps over to whole scripts.
-/

namespace LinearProbing

/-! ### Walks -/

/-- A cursor over a list of entries. -/
structure Walk (ε ω : Type) where
  /-- What writing a value does: it is refused, or it makes another entry of the current one, if it can. -/
  writes : ω → Except TableError (ε → Option ε)
  ahead : List ε
  /-- The entry produced last, unless it is removed. -/
  current : Option ε := none
  /-- The entries produced before it that are not removed. -/
  behind : List ε := []

namespace Walk

variable {ε ω : Type}

/-- The entries that are not removed. -/
def contents (w : Walk ε ω) : List ε := w.current.toList ++ w.behind ++ w.ahead

def next (w : Walk ε ω) : Option ε × Walk ε ω :=
  (w.ahead.head?, { w with
    ahead := w.ahead.tail, current := w.ahead.head?, behind := w.current.toList ++ w.behind })

def remove (w : Walk ε ω) : Option ε × Walk ε ω := (w.current, { w with current := none })

/-- Writes to the entry produced last; says whether it was written. -/
def write (value : ω) (w : Walk ε ω) : Except TableError Bool × Walk ε ω :=
  match w.writes value with
  | .error error => (.error error, w)
  | .ok update =>
    match w.current.bind update with
    | none => (.ok false, w)
    | some e => (.ok true, { w with current := some e })

theorem ahead_write (value : ω) (w : Walk ε ω) : (w.write value).2.ahead = w.ahead := by
  unfold write
  split
  · rfl
  · split <;> rfl

instance : CursorInterface (Walk ε ω) ε ω := ⟨next, remove, write⟩

end Walk

/-! ### Scripts -/

namespace CursorInterface

variable {χ ψ ε ω : Type} [CursorInterface χ ε ω] [CursorInterface ψ ε ω]

/-- Related cursors give the same answers and stay related. -/
structure Follows (R : χ → ψ → Prop) : Prop where
  next : ∀ {c d}, R c d → (next c).1 = (next d).1 ∧ R (next c).2 (next d).2
  remove : ∀ {c d}, R c d → (remove c).1 = (remove d).1 ∧ R (remove c).2 (remove d).2
  write : ∀ value {c d}, R c d →
    (write value c).1 = (write value d).1 ∧ R (write value c).2 (write value d).2

variable {R : χ → ψ → Prop} {c : χ} {d : ψ}

/-- Whether a write is accepted or refused, the cursor is the one that the write leaves. -/
theorem state_act_write (value : ω) (c : χ) : (act (.write value) c).2 = (write value c).2 := by
  rw [act]
  generalize write value c = written
  obtain ⟨result, c'⟩ := written
  cases result <;> rfl

theorem Follows.act (h : Follows R) (hR : R c d) (action : CursorAction ω) :
    (act action c).1 = (act action d).1 ∧ R (act action c).2 (act action d).2 := by
  cases action with
  | next => exact ⟨congrArg CursorAnswer.entry (h.next hR).1, (h.next hR).2⟩
  | remove => exact ⟨congrArg CursorAnswer.entry (h.remove hR).1, (h.remove hR).2⟩
  | write value =>
      obtain ⟨hanswer, hnext⟩ := h.write value hR
      rw [CursorInterface.act, CursorInterface.act]
      generalize CursorInterface.write value c = x at hanswer hnext
      generalize CursorInterface.write value d = y at hanswer hnext
      obtain ⟨answer, c'⟩ := x
      obtain ⟨answer', d'⟩ := y
      obtain rfl : answer = answer' := hanswer
      cases answer <;> exact ⟨rfl, hnext⟩

/-- Related cursors give the same answers to every script. -/
theorem Follows.runScript (h : Follows R) (script : List (CursorAction ω)) (hR : R c d) :
    (runScript script c).1 = (runScript script d).1 ∧
      R (runScript script c).2 (runScript script d).2 := by
  induction script generalizing c d with
  | nil => exact ⟨rfl, hR⟩
  | cons action rest ih =>
      obtain ⟨hanswer, hnext⟩ := h.act hR action
      obtain ⟨hanswers, hlast⟩ := ih hnext
      rw [CursorInterface.runScript, CursorInterface.runScript]
      exact ⟨congrArg₂ List.cons hanswer hanswers, hlast⟩

end CursorInterface

namespace CursorAction

variable {ε ω : Type}

def nexts : List (CursorAction ω) → Nat
  | [] => 0
  | .next :: script => nexts script + 1
  | _ :: script => nexts script

/-- What a script is given each time it goes on. -/
def produced : List (CursorAction ω) → List (CursorAnswer ε) → List (Option ε)
  | .next :: script, .entry e :: answers => e :: produced script answers
  | _ :: script, _ :: answers => produced script answers
  | _, _ => []

end CursorAction

/-- What one action does to a walk keeps what holds of all entries, if writing keeps it. -/
theorem Walk.forall_act {ε ω : Type} {P : ε → Prop} {w : Walk ε ω}
    (hwrites : ∀ value update, w.writes value = .ok update → ∀ e x, P e → update e = some x → P x)
    (h : ∀ e ∈ w.contents, P e) (action : CursorAction ω) :
    (CursorInterface.act action w).2.writes = w.writes ∧
      ∀ e ∈ (CursorInterface.act action w).2.contents, P e := by
  obtain ⟨writes, ahead, current, behind⟩ := w
  simp only [contents, List.mem_append] at h
  -- moving and removing only rearranges the contents; a write may bring in a new element, and then only one
  -- that the update makes of the current one
  cases action with
  | next =>
      refine ⟨rfl, fun e he => h e ?_⟩
      simp only [CursorInterface.act, CursorInterface.next, Walk.next, contents, List.mem_append,
        Option.mem_toList] at he
      rcases he with (hcurrent | hbehind) | hahead
      · exact Or.inr (List.mem_of_head? hcurrent)
      · exact Or.inl (by simpa using hbehind)
      · exact Or.inr (List.mem_of_mem_tail hahead)
  | remove =>
      refine ⟨rfl, fun e he => h e ?_⟩
      simp only [CursorInterface.act, CursorInterface.remove, Walk.remove, contents, List.mem_append,
        Option.toList_none, List.not_mem_nil, false_or] at he
      rcases he with hbehind | hahead
      · exact Or.inl (Or.inr hbehind)
      · exact Or.inr hahead
  | write value =>
      simp only [CursorInterface.state_act_write, CursorInterface.write, Walk.write]
      cases hupdate : writes value with
      | error error => exact ⟨rfl, by simpa [contents, or_assoc] using h⟩
      | ok update =>
          dsimp only
          cases hx : current.bind update with
          | none => exact ⟨rfl, by simpa [contents, or_assoc] using h⟩
          | some x =>
              obtain ⟨e, hcurrent, hwritten⟩ := Option.bind_eq_some_iff.mp hx
              have hPx : P x :=
                hwrites value update hupdate e x (h e (by simp [hcurrent])) hwritten
              refine ⟨rfl, fun y hy => ?_⟩
              simp only [contents, Option.toList_some, List.mem_append, List.mem_singleton] at hy
              rcases hy with (rfl | hbehind) | hahead
              · exact hPx
              · exact h y (Or.inl (Or.inr hbehind))
              · exact h y (Or.inr hahead)

/-- What writing keeps and holds of all entries of a walk holds of all that a script leaves. -/
theorem Walk.forall_runScript {ε ω : Type} {P : ε → Prop} (script : List (CursorAction ω))
    {w : Walk ε ω}
    (hwrites : ∀ value update, w.writes value = .ok update → ∀ e x, P e → update e = some x → P x)
    (h : ∀ e ∈ w.contents, P e) : ∀ e ∈ (CursorInterface.runScript script w).2.contents, P e := by
  induction script generalizing w with
  | nil => exact h
  | cons action rest ih =>
      obtain ⟨hsame, hnext⟩ := Walk.forall_act hwrites h action
      exact ih (hsame ▸ hwrites) hnext

/-- What writing keeps and holds of all entries of a walk holds of all that a script is given. -/
theorem Walk.forall_answers {ε ω : Type} {P : ε → Prop} (script : List (CursorAction ω))
    {w : Walk ε ω}
    (hwrites : ∀ value update, w.writes value = .ok update → ∀ e x, P e → update e = some x → P x)
    (h : ∀ e ∈ w.contents, P e) {e : ε}
    (he : .entry (some e) ∈ (CursorInterface.runScript script w).1) : P e := by
  induction script generalizing w with
  | nil => exact absurd he List.not_mem_nil
  | cons action rest ih =>
      obtain ⟨hsame, hnext⟩ := Walk.forall_act hwrites h action
      rcases List.mem_cons.mp he with hfirst | hrest
      · -- the first answer is an element of the walk: the one ahead, or the current one
        refine h e ?_
        rw [contents, List.mem_append, List.mem_append, Option.mem_toList]
        cases action with
        | next => exact Or.inr (List.mem_of_head? (CursorAnswer.entry.inj hfirst).symm)
        | remove => exact Or.inl (Or.inl (CursorAnswer.entry.inj hfirst).symm)
        | write value =>
            dsimp only at hfirst
            split at hfirst <;> cases hfirst
      · exact ih (hsame ▸ hwrites) hnext hrest

/-- A walk produces the entries ahead of it in turn, whatever is removed or written meanwhile. -/
theorem Walk.produced_runScript {ε ω : Type} (script : List (CursorAction ω)) (w : Walk ε ω) :
    CursorAction.produced script (CursorInterface.runScript script w).1 =
      (List.range (CursorAction.nexts script)).map (w.ahead[·]?) := by
  induction script generalizing w with
  | nil => rfl
  | cons action rest ih =>
      -- only `next` yields elements; the other actions leave those ahead alone
      cases action with
      | next =>
          have hrest := ih w.next.2
          have hstep : CursorAction.produced (.next :: rest)
              (CursorInterface.runScript (.next :: rest) w).1 =
                w.ahead.head? :: CursorAction.produced rest
                  (CursorInterface.runScript rest w.next.2).1 := rfl
          rw [hstep, hrest, CursorAction.nexts, List.range_succ_eq_map, List.map_cons, List.map_map,
            List.head?_eq_getElem?]
          refine congrArg (List.cons _) (List.map_congr_left fun i _ => ?_)
          exact List.getElem?_tail
      | remove => exact ih w.remove.2
      | write value =>
          have hahead : (CursorInterface.act (.write value) w).2.ahead = w.ahead := by
            rw [CursorInterface.state_act_write]
            exact Walk.ahead_write value w
          have hrest := ih (CursorInterface.act (.write value) w).2
          rwa [hahead] at hrest

/-! ### Cursors over tables -/

namespace Table

open EntryLayout (Lawful below)

variable {σ κ ν : Type} [BEq κ] [EquivBEq κ]
variable {E : EntryLayout σ κ ν} {hash : κ → UInt64} {storable : κ → ν → Prop} {within : Prop}
variable {t : Table σ} {c : Table.Cursor σ} {ahead behind : List (κ × ν)} {current : Option (κ × ν)}

/-- The slot and the entry that a cursor has produced last; the slot is behind it. -/
inductive AtEntry (E : EntryLayout σ κ ν) (c : Table.Cursor σ) : Option (κ × ν) → Prop
  | nothing (current : c.scan.current = none) : AtEntry E c none
  /-- It is at an offset that the scan has passed. -/
  | entry {g : Nat} {e : κ × ν} (passed : c.scan.ahead ≤ g) (hg : g < c.table.slots.size)
      (current : c.scan.current = some (offsetSlot c.table.slots.size c.scan.start g))
      (entry : c.table.entryAt? E (offsetSlot c.table.slots.size c.scan.start g) = some e) :
      AtEntry E c (some e)

/-- A cursor with the entries ahead of it, the current one, and those behind it. -/
structure Scanning (E : EntryLayout σ κ ν) (hash : κ → UInt64) (within : Prop) (c : Table.Cursor σ)
    (ahead : List (κ × ν)) (current : Option (κ × ν)) (behind : List (κ × ν)) : Prop where
  /-- Together they are the entries of the table. -/
  contents : c.table.Represents E hash within (current.toList ++ behind ++ ahead)
  walled : ∃ stop, Walled E.layout c.table.slots c.scan.start stop
  /-- No slot is looked at twice. -/
  ahead_le : c.scan.ahead ≤ c.table.slots.size
  /-- The entries ahead are in the slots that the scan has not reached. -/
  below_eq : E.below c.table.slots c.scan.start c.scan.ahead = ahead
  remaining_eq : c.scan.remaining = ahead.length
  /-- The scan knows the slot of the current entry. -/
  atEntry : AtEntry E c current

@[simp] theorem Cursor.scan_setScan (scan : Scan) : (c.setScan scan).scan = scan := by
  unfold Cursor.setScan
  split
  · rfl
  · next h => simp [Cursor.scan, h]

theorem Cursor.table_setScan (scan : Scan) :
    (c.setScan scan).table.slots = c.table.slots ∧ (c.setScan scan).table.len = c.table.len ∧
      (c.setScan scan).table.sizing = c.table.sizing := by
  unfold Cursor.setScan
  split <;> exact ⟨rfl, rfl, rfl⟩

omit [BEq κ] [EquivBEq κ] in
theorem AtEntry.setScan {scan : Scan} {g : Nat} {e : κ × ν} (hstart : scan.start = c.scan.start)
    (passed : scan.ahead ≤ g) (hg : g < c.table.slots.size)
    (hcurrent : scan.current = some (offsetSlot c.table.slots.size c.scan.start g))
    (he : c.table.entryAt? E (offsetSlot c.table.slots.size c.scan.start g) = some e) :
    AtEntry E (c.setScan scan) (some e) := by
  obtain ⟨hslots, -, -⟩ := c.table_setScan scan
  refine .entry (g := g) ?_ ?_ ?_ ?_
  · rwa [Cursor.scan_setScan]
  · rwa [hslots]
  · rw [Cursor.scan_setScan, hslots, hstart, hcurrent]
  · rw [Cursor.scan_setScan, entryAt?_eq, hslots, hstart]
    exact he

omit [EquivBEq κ] in
/-- A cursor that looks elsewhere in the same table. -/
theorem Scanning.setScan (h : Scanning E hash within c ahead current behind) {scan : Scan}
    {ahead' behind' : List (κ × ν)} {current' : Option (κ × ν)}
    (hstart : scan.start = c.scan.start) (hle : scan.ahead ≤ c.scan.ahead)
    (hperm : (current.toList ++ behind ++ ahead).Perm (current'.toList ++ behind' ++ ahead'))
    (hbelow : E.below c.table.slots c.scan.start scan.ahead = ahead')
    (hremaining : scan.remaining = ahead'.length) (hat : AtEntry E (c.setScan scan) current') :
    Scanning E hash within (c.setScan scan) ahead' current' behind' := by
  obtain ⟨hslots, hlen, hsizing⟩ := c.table_setScan scan
  exact
    { contents := (h.contents.congr hsizing hslots hlen).perm hperm
      walled := by rw [hslots, Cursor.scan_setScan, hstart]; exact h.walled
      ahead_le := by rw [hslots, Cursor.scan_setScan]; exact Nat.le_trans hle h.ahead_le
      below_eq := by rw [hslots, Cursor.scan_setScan, hstart]; exact hbelow
      remaining_eq := by rw [Cursor.scan_setScan]; exact hremaining
      atEntry := hat }

omit [EquivBEq κ] in
theorem Usable.exists_vacantAt (h : t.Usable E hash within) :
    ∃ v < t.slots.size, E.layout.vacantAt t.slots v = true := by
  refine Layout.exists_vacantAt ?_
  rw [← EntryLayout.length_entries, ← entries_eq, ← h.len_eq]
  exact h.len_lt

omit [EquivBEq κ] in
/-- A cursor that is about to begin has all entries ahead of it. -/
theorem Represents.scanning {l : List (κ × ν)} (h : t.Represents E hash within l)
    (hscan : c.scan = Scan.begin E.layout t.slots t.len) (hslots : c.table.slots = t.slots)
    (hlen : c.table.len = t.len) (hsizing : c.table.sizing = t.sizing) :
    Scanning E hash within c (E.scanOrder t.slots) none [] := by
  have hvac := h.exists_vacantAt
  have hperm := EntryLayout.scanOrder_perm hvac
  exact
    { contents := (h.congr hsizing hslots hlen).perm (h.entries.symm.trans hperm.symm)
      walled := by rw [hslots, hscan]; exact (isOrigin_origin hvac).exists_walled hvac
      ahead_le := by rw [hslots, hscan]; exact Nat.le_refl _
      below_eq := by rw [hslots, hscan]; rfl
      remaining_eq := by
        rw [hscan, hperm.length_eq, ← entries_eq, ← h.len_eq]
        rfl
      atEntry := .nothing (by rw [hscan]; rfl) }

omit [EquivBEq κ] in
theorem Represents.openCursor {l : List (κ × ν)} (h : t.Represents E hash within l) :
    Scanning E hash within (t.openCursor E) (E.scanOrder t.slots) none [] := by
  unfold Table.openCursor
  dsimp only
  split <;> exact h.scanning rfl rfl rfl rfl

omit [EquivBEq κ] in
theorem Scanning.next (h : Scanning E hash within c ahead current behind) :
    (c.next E).1 = ahead.head? ∧
      Scanning E hash within (c.next E).2 ahead.tail ahead.head? (current.toList ++ behind) := by
  unfold Cursor.next Scan.advance
  by_cases hzero : c.scan.remaining = 0
  · -- as many entries were produced as there were
    have hnil : ahead = [] := List.eq_nil_of_length_eq_zero (h.remaining_eq.symm.trans hzero)
    subst hnil
    rw [if_pos hzero]
    refine ⟨rfl, h.setScan rfl (Nat.le_refl _) (List.Perm.refl _) h.below_eq h.remaining_eq ?_⟩
    exact .nothing (by rw [Cursor.scan_setScan])
  rw [if_neg hzero]
  obtain ⟨-, hbelow⟩ | ⟨o, e, hsearch, ho, he, hbelow⟩ :=
    @EntryLayout.search_cases c.scan.start _ _ _ E c.table.slots c.scan.ahead
  · -- entries are left by the count, so the search cannot have come to its end
    rw [h.below_eq] at hbelow
    rw [h.remaining_eq, hbelow] at hzero
    exact absurd rfl hzero
  · rw [h.below_eq] at hbelow
    subst hbelow
    rw [hsearch]
    refine ⟨he, h.setScan rfl (Nat.le_of_lt ho) ?_ rfl ?_ ?_⟩
    · exact List.perm_middle
    · have hlen := h.remaining_eq
      rw [List.length_cons] at hlen
      simp only [hlen, List.tail_cons]
      rfl
    · exact AtEntry.setScan rfl (Nat.le_refl o) (Nat.lt_of_lt_of_le ho h.ahead_le) rfl he

/-- Removing an entry that the cursor has passed. -/
theorem Scanning.eraseBehind {behind' : List (κ × ν)} {e : κ × ν} {g : Nat}
    (h : Scanning E hash within c ahead none behind') (hE : E.Lawful hash storable)
    (hperm : behind'.Perm (e :: behind)) (passed : c.scan.ahead ≤ g) (hg : g < c.table.slots.size)
    (he : c.table.entryAt? E (offsetSlot c.table.slots.size c.scan.start g) = some e)
    (hcurrent : c.scan.current = none) :
    Scanning E hash within
      { c with table := c.table.eraseAt E (offsetSlot c.table.slots.size c.scan.start g) } ahead none
        behind := by
  obtain ⟨stop, hw⟩ := h.walled
  obtain ⟨hsize, hwall, hbelow⟩ := h.contents.arranged.below_erase hE hw hg he
  exact
    { contents := h.contents.eraseAt hE he (hperm.append_right ahead)
      walled := ⟨stop, hwall⟩
      ahead_le := Nat.le_trans h.ahead_le (Nat.le_of_eq hsize.symm)
      below_eq := (hbelow _ passed).trans h.below_eq
      remaining_eq := h.remaining_eq
      atEntry := .nothing hcurrent }

theorem Scanning.remove (h : Scanning E hash within c ahead current behind)
    (hE : E.Lawful hash storable) :
    (c.remove E).1 = current ∧ Scanning E hash within (c.remove E).2 ahead none behind := by
  have hforget : ∀ {behind' : List (κ × ν)},
      (current.toList ++ behind ++ ahead).Perm (behind' ++ ahead) →
        Scanning E hash within (c.setScan { c.scan with current := none }) ahead none behind' :=
    fun hperm => h.setScan rfl (Nat.le_refl _) hperm h.below_eq h.remaining_eq
      (.nothing (by rw [Cursor.scan_setScan]))
  unfold Cursor.remove Scan.takeCurrent
  cases h.atEntry with
  | nothing hcurrent =>
      rw [hcurrent]
      exact ⟨rfl, hforget (List.Perm.refl _)⟩
  | @entry g e passed hg hcurrent he =>
      rw [hcurrent]
      dsimp only
      -- the cursor forgets the entry first, and only then the table loses it
      obtain ⟨hslots, -, -⟩ := c.table_setScan { c.scan with current := none }
      have hmoved := hforget (List.Perm.refl (e :: behind ++ ahead))
      have hscan := c.scan_setScan { c.scan with current := none }
      generalize c.setScan { c.scan with current := none } = d at hslots hmoved hscan ⊢
      have hindex : offsetSlot c.table.slots.size c.scan.start g =
          offsetSlot d.table.slots.size d.scan.start g := by rw [hslots, hscan]
      have he' : d.table.entryAt? E (offsetSlot d.table.slots.size d.scan.start g) = some e := by
        rw [← hindex, entryAt?_eq, hslots]
        exact he
      rw [hindex]
      refine ⟨he', hmoved.eraseBehind hE (List.Perm.refl _) ?_ (hslots ▸ hg) he' (by rw [hscan])⟩
      rw [hscan]
      exact passed

theorem Scanning.setAt {k : κ} {v value : ν} (h : Scanning E hash within c ahead (some (k, v)) behind)
    (hE : E.Lawful hash storable) (hs : storable k value) :
    ∃ i, c.scan.current = some i ∧ c.table.entryAt? E i = some (k, v) ∧
      Scanning E hash within { c with table := c.table.setAt i (E.occupy (hash k) k value) } ahead
        (some (k, value)) behind := by
  -- the current slot lies behind the scan, so what is ahead of it does not see the write
  cases h.atEntry with
  | @entry g _ passed hg hcurrent he =>
      obtain ⟨stop, hw⟩ := h.walled
      obtain ⟨hwall, hbelow⟩ :=
        EntryLayout.below_setIfInBounds hw hg he (E.occupy (hash k) k value)
      have hsize : (c.table.setAt (offsetSlot c.table.slots.size c.scan.start g)
          (E.occupy (hash k) k value)).slots.size = c.table.slots.size := Array.size_setIfInBounds
      have hentry : (c.table.setAt (offsetSlot c.table.slots.size c.scan.start g)
          (E.occupy (hash k) k value)).entryAt? E (offsetSlot c.table.slots.size c.scan.start g) =
            some (k, value) := by
        rw [entryAt?_setAt_self (offsetSlot_lt hg), hE.entryIn?_occupy k value hs]
      refine ⟨_, hcurrent, he, ?_⟩
      exact
        { contents := h.contents.setAt hE he (List.Perm.refl _) BEq.rfl hs
          walled := ⟨stop, hwall⟩
          ahead_le := Nat.le_trans h.ahead_le (Nat.le_of_eq hsize.symm)
          below_eq := (hbelow _ passed).trans h.below_eq
          remaining_eq := h.remaining_eq
          atEntry := by
            refine .entry passed (Nat.lt_of_lt_of_le hg (Nat.le_of_eq hsize.symm)) ?_ ?_
            · exact hcurrent.trans (congrArg (fun n => some (offsetSlot n c.scan.start g)) hsize.symm)
            · exact (congrArg (fun n => (c.table.setAt _ _).entryAt? E (offsetSlot n _ g)) hsize).trans
                hentry }

end Table

end LinearProbing
