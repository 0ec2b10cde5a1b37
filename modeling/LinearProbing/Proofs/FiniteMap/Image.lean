import LinearProbing.Proofs.Contents

/-!
# LinearProbing.Proofs.FiniteMap.Image

**Finite maps under other names.** A map to values that may be null, which holds none, is a finite map with
its keys written in another way. `FiniteMap.image` writes them so: if keys are as equal as what is written
for them, then every operation on the image is the image of the operation. So it is with a table that holds
such entries: for a program that does not store nulls, it stands for the finite map itself
(`ValueMap.RepresentsImage`).
-/

namespace LinearProbing

namespace FiniteMap

variable {ι κ ν : Type}

/-- The finite map with its keys read through a function, and its values as ones that may be null. -/
def image (f : ι → κ) (m : FiniteMap ι ν) : FiniteMap κ (Option ν) :=
  ⟨m.entries.map fun e => (f e.1, some e.2)⟩

theorem size_image (f : ι → κ) (m : FiniteMap ι ν) : (m.image f).size = m.size :=
  List.length_map ..

/-- The image holds no nulls. -/
theorem nonNull_image (f : ι → κ) (m : FiniteMap ι ν) :
    nonNull (m.image f).entries = m.entries.map fun e => (f e.1, e.2) := by
  rw [image, nonNull, List.filterMap_map]
  exact congrFun List.filterMap_eq_map m.entries

/-- Members of an image in some order are the images of the members in some order. -/
theorem exists_order {f : ι → κ} {m : FiniteMap ι ν} {order : List (κ × Option ν)}
    (h : order.Perm (m.image f).entries) :
    ∃ order' : List (ι × ν), order'.Perm m.entries ∧
      order = order'.map fun e => (f e.1, some e.2) := by
  have hcomp : Relation.Comp (· = List.map (fun e : ι × ν => (f e.1, some e.2)) ·) List.Perm order
      m.entries := by
    rw [List.eq_map_comp_perm]
    exact h
  obtain ⟨order', horder, hperm⟩ := hcomp
  exact ⟨order', hperm, horder⟩

variable [BEq ι] [BEq κ] {f : ι → κ} (hf : ∀ a b, (f a == f b) = (a == b)) (m : FiniteMap ι ν)
  (key : ι) (value : ν)

include hf

theorem find?_image : (m.image f).find? (f key) = (m.find? key).map fun e => (f e.1, some e.2) := by
  rw [find?, image, List.find?_map]
  simp only [Function.comp_def, hf]
  rfl

theorem read_image : ValueMap.Spec.read (m.image f) (f key) = m.get? key := by
  rw [ValueMap.Spec.read, get?_eq, find?_image hf, get?_eq]
  cases m.find? key <;> rfl

theorem contains_image : (m.image f).contains (f key) = m.contains key := by
  rw [contains_eq_isSome, find?_image hf, Option.isSome_map, contains_eq_isSome]

theorem image_insert : (m.insert key value).image f = (m.image f).insert (f key) (some value) := by
  rw [FiniteMap.insert, FiniteMap.insert, contains_image hf]
  cases m.contains key with
  | false => rfl
  | true =>
      simp only [image, List.map_map, if_true]
      refine congrArg mk (List.map_congr_left fun e _ => ?_)
      simp only [Function.comp, hf]
      split <;> rfl

theorem image_erase : (m.erase key).image f = (m.image f).erase (f key) := by
  simp only [FiniteMap.erase, image, List.filter_map, Function.comp_def, hf]

theorem image_put : (m.put key value).image f = (m.image f).put (f key) (some value) := by
  rw [put, put, ← image_erase hf]
  rfl

theorem distinct_image_iff : (m.image f).Distinct ↔ m.Distinct := by
  simp only [Distinct, image, List.pairwise_map, hf]

end FiniteMap

/-! ### Maps that stand for an image -/

namespace ValueMap

variable {σ η ι κ ν : Type} [EntrySlot σ κ ν] [KeyHash η κ] [BEq κ] [EquivBEq κ]

/-- A map without nulls has the entries of a finite map, with its keys read through a function. -/
def RepresentsImage (f : ι → κ) (hashing : η) (within : Prop) (m : ValueMap σ η κ ν) (P : FiniteMap ι ν) :
    Prop :=
  m.Represents hashing .nonNull within (P.image f)

namespace RepresentsImage

variable {f : ι → κ} {hashing : η} {within : Prop} {m : ValueMap σ η κ ν} {P : FiniteMap ι ν}

omit [EquivBEq κ] in
theorem len_eq (h : m.RepresentsImage f hashing within P) : m.len = P.size :=
  h.table.len_eq_length.trans (FiniteMap.size_image f P)

omit [EquivBEq κ] in
theorem valueEntries_perm (h : m.RepresentsImage f hashing within P) :
    m.valueEntries.Perm (P.entries.map fun e => (f e.1, e.2)) := by
  have hvalues := Represents.valueEntries_perm h
  rwa [FiniteMap.nonNull_image] at hvalues

variable [BEq ι] (hf : ∀ a b, (f a == f b) = (a == b)) (hE : LawfulSlots σ hashing)
  (h : m.RepresentsImage f hashing within P)

include hf h

theorem distinct : P.Distinct :=
  (FiniteMap.distinct_image_iff hf P).mp (Represents.distinct h)

include hE

theorem get?_eq (key : ι) : m.get? (f key) = P.get? key := by
  rw [Represents.get?_eq h hE, FiniteMap.read_image hf]

theorem contains_eq (key : ι) : m.contains (f key) = P.contains key := by
  rw [Represents.contains_eq h hE, FiniteMap.contains_image hf]

theorem store (key : ι) (value : ν) :
    (m.store (f key) (some value)).Tracks (RepresentsImage f hashing within)
      (Overfull hashing .nonNull within) (.done (P.insert key value) (P.get? key)) := by
  have hstore := Represents.store h hE (f key) (some value)
  rw [Spec.store, FiniteMap.read_image hf, ← FiniteMap.image_insert hf] at hstore
  exact hstore.imp_left fun hagrees => ⟨hagrees.result, hagrees.ends, hagrees.state⟩

theorem erase (key : ι) :
    (m.erase (f key)).1 = P.get? key ∧
      (m.erase (f key)).2.RepresentsImage f hashing within (P.erase key) := by
  obtain ⟨hold, hstate⟩ := Represents.erase h hE (f key)
  rw [FiniteMap.read_image hf] at hold
  rw [← FiniteMap.image_erase hf] at hstate
  exact ⟨hold, hstate⟩

end RepresentsImage

end ValueMap

end LinearProbing
