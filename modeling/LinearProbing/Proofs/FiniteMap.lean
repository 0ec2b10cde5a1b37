import LinearProbing.FiniteMap

/-!
# LinearProbing.Proofs.FiniteMap

**Finite maps and sets by one key.** What an operation on a finite map does depends on one key: it is
present, and the entries are the one under it and the others (`FiniteMap.Present`), or it is absent
(`FiniteMap.Absent`). In either case every operation has a simple result. The order of the entries is
left open, so the lemmas serve for tables, whose order changes whenever an entry is moved.
-/

namespace LinearProbing

section Split

variable {ε : Type} {p : ε → Bool} {l rest : List ε} {e : ε}

/-- The only member with a property is found wherever it is. -/
theorem find?_of_split (hsplit : l.Perm (e :: rest)) (he : p e = true)
    (hothers : ∀ x ∈ rest, p x = false) : l.find? p = some e := by
  have hmem : e ∈ l := hsplit.mem_iff.mpr List.mem_cons_self
  cases hfind : l.find? p with
  | none => exact absurd he (List.find?_eq_none.mp hfind e hmem)
  | some x =>
      have hx : p x = true := List.find?_some hfind
      rcases List.mem_cons.mp (hsplit.mem_iff.mp (List.mem_of_find?_eq_some hfind)) with rfl | hrest
      · rfl
      · exact absurd (hx.symm.trans (hothers x hrest)) (by decide)

/-- Without the only member with a property, the others are left. -/
theorem filter_not_of_split (hsplit : l.Perm (e :: rest)) (he : p e = true)
    (hothers : ∀ x ∈ rest, p x = false) : (l.filter (! p ·)).Perm rest := by
  have hrest : rest.filter (! p ·) = rest :=
    List.filter_eq_self.mpr fun x hx => by simp [hothers x hx]
  have := hsplit.filter (! p ·)
  rwa [List.filter_cons_of_neg (by simp [he]), hrest] at this

end Split

namespace FiniteMap

variable {κ ν : Type} [BEq κ] {m : FiniteMap κ ν} {key k : κ} {v : ν} {rest : List (κ × ν)}

/-- The key is present: its entry is `(k, v)`, and `rest` are the others. -/
structure Present (m : FiniteMap κ ν) (key k : κ) (v : ν) (rest : List (κ × ν)) : Prop where
  split : m.entries.Perm ((k, v) :: rest)
  same : (k == key) = true
  others : ∀ e ∈ rest, (e.1 == key) = false

/-- The key is absent. -/
def Absent (m : FiniteMap κ ν) (key : κ) : Prop := ∀ e ∈ m.entries, (e.1 == key) = false

/-- The entry under a key, with the key as it is stored. -/
def find? (m : FiniteMap κ ν) (key : κ) : Option (κ × ν) := m.entries.find? (·.1 == key)

/-- No two entries have equal keys. -/
def Distinct (m : FiniteMap κ ν) : Prop := m.entries.Pairwise fun a b => (a.1 == b.1) = false

instance (m : FiniteMap κ ν) : Decidable m.Distinct :=
  inferInstanceAs (Decidable (m.entries.Pairwise fun a b => (a.1 == b.1) = false))

/-- The map with a value under a key. An entry that is there is replaced, its key too. -/
def put (m : FiniteMap κ ν) (key : κ) (value : ν) : FiniteMap κ ν :=
  ⟨(key, value) :: (m.erase key).entries⟩

theorem get?_eq : m.get? key = (m.find? key).map Prod.snd := rfl

/-- A key is present exactly when a value is read under it. -/
theorem contains_eq : m.contains key = (m.get? key).isSome := by
  rw [Bool.eq_iff_iff, FiniteMap.contains, get?_eq, Option.isSome_map, find?, List.find?_isSome,
    List.any_eq_true]

/-! ### Present keys -/

/-- The entry of a present key is the one that is found. -/
theorem Present.find? (h : m.Present key k v rest) : m.find? key = some (k, v) :=
  find?_of_split h.split h.same h.others

theorem Present.get? (h : m.Present key k v rest) : m.get? key = some v := by
  rw [get?_eq, h.find?, Option.map_some]

theorem Present.contains (h : m.Present key k v rest) : m.contains key = true :=
  List.any_eq_true.mpr ⟨(k, v), h.split.mem_iff.mpr List.mem_cons_self, h.same⟩

/-- Removing a present key leaves the other entries. -/
theorem Present.erase (h : m.Present key k v rest) : (m.erase key).entries.Perm rest :=
  filter_not_of_split h.split h.same h.others

/-- An insertion under a present key keeps the stored key and changes the value. -/
theorem Present.insert (h : m.Present key k v rest) (value : ν) :
    (m.insert key value).entries.Perm ((k, value) :: rest) := by
  have hrest : rest.map (fun e => if e.1 == key then (e.1, value) else e) = rest := by
    refine (List.map_congr_left fun e he => ?_).trans (List.map_id rest)
    rw [h.others e he]
    rfl
  rw [FiniteMap.insert, if_pos h.contains]
  have := h.split.map fun e => if e.1 == key then (e.1, value) else e
  rwa [List.map_cons, if_pos h.same, hrest] at this

/-- An entry that is put stands under the key of the call, whatever key was stored. -/
theorem Present.put (h : m.Present key k v rest) (value : ν) :
    (m.put key value).entries.Perm ((key, value) :: rest) :=
  h.erase.cons _

theorem Present.size (h : m.Present key k v rest) : m.size = rest.length + 1 :=
  h.split.length_eq

/-! ### Absent keys -/

theorem Absent.find? (h : m.Absent key) : m.find? key = none :=
  List.find?_eq_none.mpr fun e he => by simp [h e he]

theorem Absent.get? (h : m.Absent key) : m.get? key = none := by
  rw [get?_eq, h.find?, Option.map_none]

theorem Absent.contains (h : m.Absent key) : m.contains key = false :=
  List.any_eq_false.mpr fun e he => by simp [h e he]

/-- Removing an absent key changes nothing. -/
theorem Absent.erase (h : m.Absent key) : m.erase key = m := by
  rw [FiniteMap.erase, List.filter_eq_self.mpr fun e he => by simp [h e he]]

/-- An insertion under an absent key adds an entry in front. -/
theorem Absent.insert (h : m.Absent key) (value : ν) :
    (m.insert key value).entries = (key, value) :: m.entries := by
  rw [FiniteMap.insert, if_neg (by simp [h.contains])]

/-- Putting and inserting differ only in the stored key of a present entry. -/
theorem Absent.put (h : m.Absent key) (value : ν) : m.put key value = m.insert key value :=
  congrArg mk ((congrArg (_ :: ·.entries) h.erase).trans (h.insert value).symm)

/-! ### Looking up what was changed -/

/-- Equal keys find the same entry. -/
theorem find?_congr [EquivBEq κ] (m : FiniteMap κ ν) {other : κ} (h : (key == other) = true) :
    m.find? key = m.find? other :=
  congrArg (m.entries.find? ·) (funext fun _ => BEq.congr_right h)

theorem find?_cons (e : κ × ν) (rest : List (κ × ν)) (key : κ) :
    (⟨e :: rest⟩ : FiniteMap κ ν).find? key =
      if e.1 == key then some e else (⟨rest⟩ : FiniteMap κ ν).find? key := by
  rw [find?, find?, List.find?_cons]
  cases e.1 == key <;> rfl

/-- What is found for a key is stored under an equal key. -/
theorem key_of_find? {e : κ × ν} (h : m.find? key = some e) : (e.1 == key) = true :=
  List.find?_some (p := fun x : κ × ν => x.1 == key) h

theorem contains_eq_isSome : m.contains key = (m.find? key).isSome := by
  rw [contains_eq, get?_eq, Option.isSome_map]

/-- Overwriting values leaves the keys, so that the same entries are found. -/
theorem find?_map_overwrite (l : List (κ × ν)) (key other : κ) (value : ν) :
    (l.map fun e => if e.1 == key then (e.1, value) else e).find? (·.1 == other) =
      (l.find? (·.1 == other)).map fun e => if e.1 == key then (e.1, value) else e := by
  rw [List.find?_map]
  refine congrArg (fun p => (l.find? p).map _) (funext fun e => ?_)
  by_cases he : e.1 == key <;> simp [he]

/-- What is found after a value was stored: a key that was present keeps its spelling. -/
theorem find?_insert [EquivBEq κ] (m : FiniteMap κ ν) (key other : κ) (value : ν) :
    (m.insert key value).find? other =
      if key == other then some ((m.find? key).elim key Prod.fst, value) else m.find? other := by
  cases hc : m.contains key with
  | false =>
      rw [FiniteMap.insert, if_neg (by simp [hc])]
      rw [contains_eq_isSome, Option.isSome_eq_false_iff, Option.isNone_iff_eq_none] at hc
      rw [hc, find?_cons]
      rfl
  | true =>
      have hfind : (m.insert key value).find? other =
          (m.find? other).map fun e => if e.1 == key then (e.1, value) else e := by
        rw [FiniteMap.insert, if_pos hc]
        exact find?_map_overwrite m.entries key other value
      rw [contains_eq_isSome] at hc
      obtain ⟨e, he⟩ := Option.isSome_iff_exists.mp hc
      rw [hfind]
      cases hother : key == other with
      | true =>
          rw [← m.find?_congr hother, he]
          simp [key_of_find? he]
      | false =>
          -- the entry that is found has another key, so it was not overwritten
          cases hx : m.find? other with
          | none => rfl
          | some x =>
              have hne : (x.1 == key) = false := by
                rw [BEq.congr_left (key_of_find? hx), BEq.comm]
                exact hother
              simp [hne]

/-- Reading after an insertion. -/
theorem get?_insert [EquivBEq κ] (m : FiniteMap κ ν) (key other : κ) (value : ν) :
    (m.insert key value).get? other = if key == other then some value else m.get? other := by
  rw [get?_eq, find?_insert]
  cases key == other <;> rfl

/-- What is found after a key was erased has another key. -/
theorem find?_erase [EquivBEq κ] (m : FiniteMap κ ν) (key other : κ) :
    (m.erase key).find? other = if key == other then none else m.find? other := by
  rw [find?, FiniteMap.erase, List.find?_filter]
  cases hother : key == other with
  | true =>
      -- what is left has other keys
      simp [BEq.congr_right hother]
  | false =>
      have hsame : ∀ e : κ × ν, decide ((!e.1 == key) = true ∧ (e.1 == other) = true) =
          (e.1 == other) := by
        intro e
        cases he : e.1 == other with
        | false => simp
        | true => simp [BEq.congr_left he, BEq.comm (b := key), hother]
      simp only [hsame]
      rfl

/-- What is found after an entry was put: it has the key that it was put under. -/
theorem find?_put [EquivBEq κ] (m : FiniteMap κ ν) (key other : κ) (value : ν) :
    (m.put key value).find? other = if key == other then some (key, value) else m.find? other := by
  have hrest := m.find?_erase key other
  rw [put, find?_cons]
  cases hother : key == other with
  | true => rfl
  | false =>
      rw [hother] at hrest
      exact hrest

/-- Reading after a removal. -/
theorem get?_erase [EquivBEq κ] (m : FiniteMap κ ν) (key other : κ) :
    (m.erase key).get? other = if key == other then none else m.get? other := by
  rw [get?_eq, find?_erase]
  cases key == other <;> rfl

/-- Reading after an entry was put. -/
theorem get?_put [EquivBEq κ] (m : FiniteMap κ ν) (key other : κ) (value : ν) :
    (m.put key value).get? other = if key == other then some value else m.get? other := by
  rw [get?_eq, find?_put]
  cases key == other <;> rfl

/-- What is done under one key leaves the values of the others. -/
theorem get?_insert_of_ne [EquivBEq κ] (m : FiniteMap κ ν) {key other : κ} (hne : (key == other) = false)
    (value : ν) : (m.insert key value).get? other = m.get? other := by
  rw [get?_insert, if_neg (by simp [hne])]

theorem get?_put_of_ne [EquivBEq κ] (m : FiniteMap κ ν) {key other : κ} (hne : (key == other) = false)
    (value : ν) : (m.put key value).get? other = m.get? other := by
  rw [get?_put, if_neg (by simp [hne])]

theorem get?_erase_of_ne [EquivBEq κ] (m : FiniteMap κ ν) {key other : κ} (hne : (key == other) = false) :
    (m.erase key).get? other = m.get? other := by
  rw [get?_erase, if_neg (by simp [hne])]

theorem get?_insert_self [EquivBEq κ] (m : FiniteMap κ ν) (key : κ) (value : ν) :
    (m.insert key value).get? key = some value := by
  simp [get?_eq, find?_insert]

theorem get?_put_self [ReflBEq κ] (m : FiniteMap κ ν) (key : κ) (value : ν) :
    (m.put key value).get? key = some value := by
  simp [FiniteMap.get?, FiniteMap.put]

theorem get?_erase_self (m : FiniteMap κ ν) (key : κ) : (m.erase key).get? key = none := by
  simp [FiniteMap.get?, FiniteMap.erase]

/-! ### Distinct keys -/

/-- With distinct keys, every entry is the one under its key. -/
theorem Distinct.exists_present [EquivBEq κ] (h : m.Distinct) (he : (k, v) ∈ m.entries) :
    ∃ rest, m.Present k k v rest := by
  obtain ⟨before, after, hsplit⟩ := List.append_of_mem he
  have hperm : m.entries.Perm ((k, v) :: (before ++ after)) := hsplit ▸ List.perm_middle
  have hpairwise := (hperm.pairwise_iff fun {a b} hab => by rwa [BEq.comm]).mp h
  refine ⟨before ++ after, hperm, BEq.rfl, ?_⟩
  intro e hmem
  rw [BEq.comm]
  exact (List.pairwise_cons.mp hpairwise).1 e hmem

/-- Each entry is found under its own key. -/
theorem Distinct.find?_eq [EquivBEq κ] (h : m.Distinct) {e : κ × ν} (he : e ∈ m.entries) :
    m.find? e.1 = some e := by
  obtain ⟨rest, hpresent⟩ := h.exists_present he
  exact hpresent.find?

/-- Keys that are pairwise different are so in any order. -/
theorem Distinct.perm [EquivBEq κ] {n : FiniteMap κ ν} (h : m.Distinct)
    (hperm : m.entries.Perm n.entries) : n.Distinct :=
  (hperm.pairwise_iff fun {a b} hab => by rwa [BEq.comm]).mp h

/-- Lookups do not see the order of the entries. -/
theorem Distinct.find?_perm [EquivBEq κ] {n : FiniteMap κ ν} (h : m.Distinct)
    (hperm : m.entries.Perm n.entries) (key : κ) : m.find? key = n.find? key := by
  cases hfind : m.find? key with
  | some e =>
      have hmem : e ∈ n.entries := hperm.mem_iff.mp (List.mem_of_find?_eq_some hfind)
      rw [← n.find?_congr (key_of_find? hfind), (h.perm hperm).find?_eq hmem]
  | none =>
      have habsent : n.Absent key := by
        intro e he
        have := List.find?_eq_none.mp hfind e (hperm.mem_iff.mpr he)
        simpa using this
      rw [habsent.find?]

/-- Maps in which the same is found have the same entries. -/
theorem Distinct.perm_of_find? [EquivBEq κ] {n : FiniteMap κ ν} (hm : m.Distinct) (hn : n.Distinct)
    (h : ∀ key, m.find? key = n.find? key) : m.entries.Perm n.entries := by
  have hnodup : ∀ {l : FiniteMap κ ν}, l.Distinct → l.entries.Nodup := by
    intro l hl
    refine List.Pairwise.imp ?_ hl
    rintro a b hab rfl
    simp at hab
  have hmem : ∀ {l : FiniteMap κ ν} {e : κ × ν}, l.Distinct → (e ∈ l.entries ↔ l.find? e.1 = some e) :=
    fun hl => ⟨hl.find?_eq, List.mem_of_find?_eq_some⟩
  rw [List.perm_ext_iff_of_nodup (hnodup hm) (hnodup hn)]
  intro e
  rw [hmem hm, hmem hn, h]

/-- An insertion keeps the keys pairwise different. -/
theorem Distinct.insert [EquivBEq κ] (h : m.Distinct) (key : κ) (value : ν) :
    (m.insert key value).Distinct := by
  rw [Distinct, FiniteMap.insert]
  cases hc : m.contains key with
  | true =>
      rw [if_pos rfl]
      refine List.pairwise_map.mpr (List.Pairwise.imp ?_ h)
      intro a b hab
      by_cases ha : a.1 == key <;> by_cases hb : b.1 == key <;> simpa [ha, hb] using hab
  | false =>
      rw [if_neg (by simp)]
      refine List.pairwise_cons.mpr ⟨fun e he => ?_, h⟩
      have := List.any_eq_false.mp hc e he
      rw [BEq.comm]
      simpa using this

/-! ### Storing many entries -/

theorem Distinct.foldl_insert [EquivBEq κ] (h : m.Distinct) (l : List (κ × ν)) :
    (l.foldl (fun m e => m.insert e.1 e.2) m).Distinct := by
  induction l generalizing m with
  | nil => exact h
  | cons e rest ih => exact ih (h.insert e.1 e.2)

/-- What is found after entries with distinct keys were stored. -/
theorem find?_foldl_insert [EquivBEq κ] {l : List (κ × ν)} (hl : (⟨l⟩ : FiniteMap κ ν).Distinct)
    (m : FiniteMap κ ν) (key : κ) :
    (l.foldl (fun m e => m.insert e.1 e.2) m).find? key =
      (((⟨l⟩ : FiniteMap κ ν).find? key).map fun e => ((m.find? e.1).elim e.1 Prod.fst, e.2)).or
        (m.find? key) := by
  induction l generalizing m with
  | nil => rfl
  | cons x rest ih =>
      obtain ⟨hx, hrest⟩ := List.pairwise_cons.mp hl
      rw [List.foldl_cons, ih hrest, find?_insert, find?_cons]
      -- the key of the first entry may be the one that is read, and then no later one is
      cases hkey : x.1 == key with
      | true =>
          have habsent : (⟨rest⟩ : FiniteMap κ ν).Absent key := by
            intro e he
            rw [← BEq.congr_right hkey, BEq.comm]
            exact hx e he
          simp [habsent.find?]
      | false =>
          -- a later entry of the list has another key than the first one, as the list has distinct keys
          cases hfind : (⟨rest⟩ : FiniteMap κ ν).find? key with
          | none => simp
          | some e =>
              have hne : (x.1 == e.1) = false := hx e (List.mem_of_find?_eq_some hfind)
              simp [find?_insert, hne]

/-- Entries with distinct keys are all there is in the map of their list. -/
theorem ofList_perm [EquivBEq κ] {l : List (κ × ν)} (hl : (⟨l⟩ : FiniteMap κ ν).Distinct) :
    (ofList l).entries.Perm l := by
  have hempty : (⟨[]⟩ : FiniteMap κ ν).Distinct := List.Pairwise.nil
  refine (hempty.foldl_insert l).perm_of_find? hl fun key => ?_
  rw [find?_foldl_insert hl]
  simp [find?]

/-- After a list of insertions a key has its value in the list, if it is there. -/
theorem get?_foldl_insert [EquivBEq κ] {l : List (κ × ν)} (hl : (⟨l⟩ : FiniteMap κ ν).Distinct)
    (m : FiniteMap κ ν) (key : κ) :
    (l.foldl (fun m e => m.insert e.1 e.2) m).get? key =
      ((⟨l⟩ : FiniteMap κ ν).get? key).or (m.get? key) := by
  rw [get?_eq, find?_foldl_insert hl, Option.map_or, Option.map_map]
  rfl

theorem find?_eq_map_get? [LawfulBEq κ] (m : FiniteMap κ ν) (key : κ) :
    m.find? key = (m.get? key).map (key, ·) := by
  rw [get?_eq, Option.map_map]
  cases hfind : m.find? key with
  | none => rfl
  | some e =>
      obtain rfl := eq_of_beq (key_of_find? hfind)
      rfl

/-- Storing entries with distinct keys leaves these, and those of other keys. -/
theorem Distinct.foldl_insert_perm_append [LawfulBEq κ] {l : List (κ × ν)} (h : m.Distinct)
    (hl : (⟨l⟩ : FiniteMap κ ν).Distinct) :
    (l.foldl (fun m e => m.insert e.1 e.2) m).entries.Perm
      (l ++ m.entries.filter fun e => ! (⟨l⟩ : FiniteMap κ ν).contains e.1) := by
  have hothers : ∀ x ∈ l, ∀ e ∈ m.entries.filter fun e => ! (⟨l⟩ : FiniteMap κ ν).contains e.1,
      (x.1 == e.1) = false := by
    intro x hx e he
    have hnot := (List.mem_filter.mp he).2
    rw [Bool.not_eq_true', contains, List.any_eq_false] at hnot
    simpa using hnot x hx
  refine (h.foldl_insert l).perm_of_find? (n := ⟨_⟩)
    (List.pairwise_append.mpr ⟨hl, List.Pairwise.filter _ h, hothers⟩) fun key => ?_
  rw [find?_eq_map_get?, get?_foldl_insert hl, find?_eq_map_get?]
  refine congrArg (Option.map _) ?_
  change _ = ((l ++ _).find? (·.1 == key)).map Prod.snd
  rw [List.find?_append, List.find?_filter, Option.map_or]
  cases hfind : l.find? (·.1 == key) with
  | some e =>
      have hget : (⟨l⟩ : FiniteMap κ ν).get? key = some e.2 := congrArg (Option.map Prod.snd) hfind
      rw [hget]
      rfl
  | none =>
      have hget : (⟨l⟩ : FiniteMap κ ν).get? key = none := congrArg (Option.map Prod.snd) hfind
      have hcontains : (⟨l⟩ : FiniteMap κ ν).contains key = false := by rw [contains_eq, hget]; rfl
      -- the entry under the key is not overwritten, so it is among those that are left
      have hpred : ∀ e : κ × ν, decide ((! (⟨l⟩ : FiniteMap κ ν).contains e.1) = true ∧
          (e.1 == key) = true) = (e.1 == key) := by
        intro e
        cases he : e.1 == key with
        | false => simp
        | true => simp [eq_of_beq he, hcontains]
      simp only [hpred, hget]
      rfl

/-- The order in which entries with distinct keys are stored does not matter. -/
theorem Distinct.foldl_insert_perm [EquivBEq κ] {l l' : List (κ × ν)} (h : m.Distinct)
    (hl : (⟨l⟩ : FiniteMap κ ν).Distinct) (hperm : l.Perm l') :
    (l.foldl (fun m e => m.insert e.1 e.2) m).entries.Perm
      (l'.foldl (fun m e => m.insert e.1 e.2) m).entries := by
  have hl' : (⟨l'⟩ : FiniteMap κ ν).Distinct := hl.perm hperm
  refine (h.foldl_insert l).perm_of_find? (h.foldl_insert l') fun key => ?_
  rw [find?_foldl_insert hl, find?_foldl_insert hl', hl.find?_perm hperm key]

end FiniteMap

namespace FiniteSet

variable {α : Type} [BEq α] {s : FiniteSet α} {x y : α} {rest : List α}

/-- The value is a member: `y` is the member equal to it, and `rest` are the others. -/
structure Present (s : FiniteSet α) (x y : α) (rest : List α) : Prop where
  split : s.members.Perm (y :: rest)
  same : (y == x) = true
  others : ∀ z ∈ rest, (z == x) = false

/-- The value is not a member. -/
def Absent (s : FiniteSet α) (x : α) : Prop := ∀ y ∈ s.members, (y == x) = false

/-- The member that equals a given one. -/
def find? (s : FiniteSet α) (x : α) : Option α := s.members.find? (· == x)

/-- No two members are equal. -/
def Distinct (s : FiniteSet α) : Prop := s.members.Pairwise fun x y => (x == y) = false

instance (s : FiniteSet α) : Decidable s.Distinct :=
  inferInstanceAs (Decidable (s.members.Pairwise fun x y => (x == y) = false))

/-- The member that is present is the one that is found. -/
theorem Present.find? (h : s.Present x y rest) : s.find? x = some y :=
  find?_of_split h.split h.same h.others

theorem Present.erase (h : s.Present x y rest) : (s.erase x).members.Perm rest :=
  filter_not_of_split h.split h.same h.others

theorem Absent.find? (h : s.Absent x) : s.find? x = none :=
  List.find?_eq_none.mpr fun y hy => by simp [h y hy]

theorem Absent.erase (h : s.Absent x) : s.erase x = s := by
  rw [FiniteSet.erase, List.filter_eq_self.mpr fun y hy => by simp [h y hy]]

variable [EquivBEq α]

theorem Present.contains (h : s.Present x y rest) : s.contains x = true :=
  List.contains_iff_exists_mem_beq.mpr
    ⟨y, h.split.mem_iff.mpr List.mem_cons_self, BEq.symm h.same⟩

/-- A present member stays the one that is stored. -/
theorem Present.insert (h : s.Present x y rest) : s.insert x = s := by
  rw [FiniteSet.insert, if_pos h.contains]

theorem Absent.contains (h : s.Absent x) : s.contains x = false := by
  rw [← Bool.not_eq_true, FiniteSet.contains, List.contains_iff_exists_mem_beq]
  rintro ⟨y, hy, hxy⟩
  exact absurd ((BEq.symm hxy).symm.trans (h y hy)) (by decide)

/-- A new member stands in front. -/
theorem Absent.insert (h : s.Absent x) : (s.insert x).members = x :: s.members := by
  rw [FiniteSet.insert, if_neg (by simp [h.contains])]

/-- Each member is present, among others that differ from it. -/
theorem Distinct.exists_present (h : s.Distinct) (hx : x ∈ s.members) :
    ∃ rest, s.Present x x rest := by
  obtain ⟨before, after, hsplit⟩ := List.append_of_mem hx
  have hperm : s.members.Perm (x :: (before ++ after)) := hsplit ▸ List.perm_middle
  have hpairwise := (hperm.pairwise_iff fun {a b} hab => by rwa [BEq.comm]).mp h
  refine ⟨before ++ after, hperm, BEq.rfl, ?_⟩
  intro y hmem
  rw [BEq.comm]
  exact (List.pairwise_cons.mp hpairwise).1 y hmem

/-- Each member finds itself. -/
theorem Distinct.find?_eq (h : s.Distinct) (hx : x ∈ s.members) : s.find? x = some x := by
  obtain ⟨rest, hpresent⟩ := h.exists_present hx
  exact hpresent.find?

/-- Distinct values that are not members all become members. -/
theorem foldl_insert_perm {xs : List α} (hdistinct : xs.Pairwise fun a b => (a == b) = false)
    (habsent : ∀ x ∈ xs, s.Absent x) :
    (xs.foldl FiniteSet.insert s).members.Perm (xs ++ s.members) := by
  induction xs generalizing s with
  | nil => exact List.Perm.refl _
  | cons x rest ih =>
      obtain ⟨hx, hrest⟩ := List.pairwise_cons.mp hdistinct
      have hinsert := (habsent x List.mem_cons_self).insert
      refine (ih hrest fun z hz y hy => ?_).trans ?_
      · rw [hinsert] at hy
        rcases List.mem_cons.mp hy with rfl | hmem
        · exact hx z hz
        · exact habsent z (List.mem_cons_of_mem x hz) y hmem
      · rw [hinsert]
        exact List.perm_middle

end FiniteSet

end LinearProbing
