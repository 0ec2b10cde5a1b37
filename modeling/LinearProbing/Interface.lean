import LinearProbing.FiniteMap
import LinearProbing.KeyMap
import LinearProbing.KeySet
import LinearProbing.WordKeyMap
import LinearProbing.WordMap
import LinearProbing.WordSet

/-!
# LinearProbing.Interface

**One interface for all maps, and one for all sets.** Code written against `MapInterface` runs with
every map of the library and with plain finite maps alike. A word map shows its missing value as an
absent key and refuses to store it; a null value is shown as an absent one.
-/

namespace LinearProbing

/-- What all maps offer. -/
class MapInterface (μ : Type) (κ ν : outParam Type) where
  len : μ → Nat
  contains : μ → κ → Bool
  get? : μ → κ → Option ν
  /-- Stores a value under a key; the result is the former value. Only a value that the map cannot
  hold is refused. -/
  insert : μ → κ → ν → Change μ (Option ν)
  /-- Removes a key; the result is its value. -/
  erase : μ → κ → Option ν × μ
  clear : μ → μ
  /-- The entries that have a value. -/
  visit : μ → List (κ × ν)

/-- What all sets offer. -/
class SetInterface (μ : Type) (α : outParam Type) where
  len : μ → Nat
  contains : μ → α → Bool
  /-- Adds a member; says whether it is new. -/
  insert : μ → α → Change μ Bool
  /-- Removes a member; says whether there was one. -/
  erase : μ → α → Bool × μ
  visit : μ → List α

namespace MapInterface

variable {μ κ ν : Type} [MapInterface μ κ ν]

def isEmpty (m : μ) : Bool := len m == 0

end MapInterface

namespace SetInterface

variable {μ α : Type} [SetInterface μ α]

def isEmpty (s : μ) : Bool := len s == 0

end SetInterface

/-! ### Plain finite maps and sets -/

instance {κ ν : Type} [BEq κ] : MapInterface (FiniteMap κ ν) κ ν where
  len := FiniteMap.size
  contains := FiniteMap.contains
  get? := FiniteMap.get?
  insert m key value := .done (m.insert key value) (m.get? key)
  erase m key := (m.get? key, m.erase key)
  clear _ := {}
  visit := FiniteMap.entries

instance {α : Type} [BEq α] : SetInterface (FiniteSet α) α where
  len := FiniteSet.size
  contains := FiniteSet.contains
  insert s x := .done (s.insert x) (! s.contains x)
  erase s x := (s.contains x, s.erase x)
  visit := FiniteSet.members

/-! ### The maps of the library -/

instance {κ ν : Type} [SignedWord κ] [SignedWord ν] : MapInterface (WordMap κ ν) κ ν where
  len := WordMap.len
  contains := WordMap.contains
  get? := WordMap.get?
  insert m key value := (m.insert key value).map fun old => if old = m.missing then none else some old
  erase := WordMap.erase?
  clear := WordMap.clear
  visit := WordMap.entries

instance {σ η κ ν : Type} [EntrySlot σ κ ν] [KeyHash η κ] [BEq κ] :
    MapInterface (ValueMap σ η κ ν) κ ν where
  len := ValueMap.len
  contains := ValueMap.contains
  get? := ValueMap.get?
  insert := ValueMap.insert
  erase := ValueMap.erase
  clear := ValueMap.clear
  visit := ValueMap.valueEntries

/-! ### The sets of the library -/

instance {α : Type} [SignedWord α] : SetInterface (WordSet α) α where
  len := WordSet.len
  contains := WordSet.contains
  insert := WordSet.insert
  erase := WordSet.erase
  visit := WordSet.members

instance {η α : Type} [Hasher η α] [BEq α] : SetInterface (KeySet η α) α where
  len := MemberSet.len
  contains := MemberSet.contains
  insert := MemberSet.insert
  erase := MemberSet.erase
  visit := MemberSet.members

end LinearProbing
