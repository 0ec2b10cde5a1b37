import LinearProbing.Interface
import LinearProbing.PairMap
import LinearProbing.Tally

/-!
# LinearProbing.Container

**What all growing containers have in common**, whatever they hold: a size, a sizing, content equality
with a content hash that agrees with it, two texts, and the operations that need no key
(`TableContainer`). The sets have more in common than that (`SetContainer`).
-/

namespace LinearProbing

/-- What all growing containers offer. -/
class TableContainer (μ : Type) extends BEq μ where
  len : μ → Nat
  sizing : μ → Sizing
  mode : μ → IterationMode
  copy : μ → μ
  clear : μ → μ
  /-- Moves the entries to the least table that holds them. -/
  compact : μ → Change μ Unit
  hashCode : μ → UInt64
  toText : μ → String
  detailedText : μ → String

/-- What all growing sets offer beyond `SetInterface`. -/
class SetContainer (μ : Type) (α : outParam Type) extends SetInterface μ α where
  containsAll : μ → List α → Bool
  /-- The set has the members of a list of distinct values, and no others. -/
  beqMembers : μ → List α → Bool
  extend : μ → List α → Change μ Unit
  /-- The set of the members of a list. -/
  ofList : List α → Change μ Unit
  /-- Removes the members of a list; says whether any was removed. -/
  eraseAll : μ → List α → Bool × μ
  /-- Removes the members that a predicate does not keep. -/
  retain : μ → (α → Reply Bool) → Call μ α Unit
  /-- The members that are not in another set. -/
  difference : μ → μ → Change μ Unit

/-! ### The containers of the library -/

instance {κ ν : Type} [SignedWord κ] [SignedWord ν] [Digest] [ContentHash κ] [ContentHash ν] :
    TableContainer (WordMap κ ν) where
  len := WordMap.len
  sizing m := m.table.sizing
  mode m := m.table.mode
  copy := id
  clear := WordMap.clear
  compact := WordMap.compact
  hashCode := WordMap.hashCode
  toText := WordMap.toText
  detailedText := WordMap.detailedText

instance {κ ν : Type} [SignedWord κ] [SignedWord ν] [Digest] [ContentHash κ] [ContentHash ν] :
    TableContainer (Tally κ ν) where
  len := Tally.len
  sizing t := t.counts.table.sizing
  mode t := t.counts.table.mode
  copy := id
  clear := Tally.clear
  compact := Tally.compact
  hashCode := Tally.hashCode
  toText := Tally.toText
  detailedText := Tally.detailedText

instance {σ η κ ν : Type} [EntrySlot σ κ ν] [KeyHash η κ] [BEq κ] [BEq ν] [Digest]
    [ContentHash κ] [ContentHash ν] [Render κ] [Render ν] : TableContainer (ValueMap σ η κ ν) where
  len := ValueMap.len
  sizing m := m.table.sizing
  mode m := m.table.mode
  copy := ValueMap.copy
  clear := ValueMap.clear
  compact := ValueMap.compact
  hashCode := ValueMap.hashCode
  toText := ValueMap.toText
  detailedText := ValueMap.detailedText

instance {ν : Type} [BEq ν] [Digest] [ContentHash ν] [Render ν] : TableContainer (PairMap ν) where
  len := PairMap.len
  sizing m := m.inner.table.sizing
  mode m := m.inner.table.mode
  copy := PairMap.copy
  clear := PairMap.clear
  compact := PairMap.compact
  hashCode := PairMap.hashCode
  toText := PairMap.toText
  detailedText := PairMap.detailedText

instance {α : Type} [SignedWord α] [Digest] [ContentHash α] : TableContainer (WordSet α) where
  len := WordSet.len
  sizing s := s.inner.table.sizing
  mode s := s.inner.table.mode
  copy := id
  clear := WordSet.clear
  compact := WordSet.compact
  hashCode := WordSet.hashCode
  toText := WordSet.toText
  detailedText := WordSet.detailedText

instance {α : Type} [SignedWord α] : SetContainer (WordSet α) α where
  containsAll := WordSet.containsAll
  beqMembers := WordSet.beqMembers
  extend := WordSet.extend
  ofList := WordSet.ofList
  eraseAll := WordSet.eraseAll
  retain := WordSet.retain
  difference := WordSet.difference

instance {η α : Type} [Hasher η α] [BEq α] [Digest] [ContentHash α] [Render α] :
    TableContainer (KeySet η α) where
  len := MemberSet.len
  sizing s := s.table.sizing
  mode s := s.table.mode
  copy := MemberSet.copy
  clear := MemberSet.clear
  compact := MemberSet.compact
  hashCode := MemberSet.hashCode
  toText := MemberSet.toText
  detailedText := MemberSet.detailedText

instance {η α : Type} [Hasher η α] [BEq α] [Inhabited η] : SetContainer (KeySet η α) α where
  containsAll := MemberSet.containsAll
  beqMembers := MemberSet.beqMembers
  extend := MemberSet.extend
  ofList := MemberSet.ofList
  eraseAll := MemberSet.eraseAll
  retain := MemberSet.retain
  difference := MemberSet.difference

end LinearProbing
