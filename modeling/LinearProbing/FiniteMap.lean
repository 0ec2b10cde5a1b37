/-!
# LinearProbing.FiniteMap

**Finite maps and sets as lists.** The plainest form of the contents of a container: a map is a list of
entries with distinct keys, a set a list of distinct members, and every operation goes through the
list. What the tables do is compared with this.
-/

namespace LinearProbing

/-- A finite map: entries with distinct keys, the newest first. -/
structure FiniteMap (κ ν : Type) where
  entries : List (κ × ν) := []

namespace FiniteMap

variable {κ ν : Type} [BEq κ]

def size (m : FiniteMap κ ν) : Nat := m.entries.length

def get? (m : FiniteMap κ ν) (key : κ) : Option ν :=
  (m.entries.find? (·.1 == key)).map Prod.snd

def contains (m : FiniteMap κ ν) (key : κ) : Bool := m.entries.any (·.1 == key)

def erase (m : FiniteMap κ ν) (key : κ) : FiniteMap κ ν := ⟨m.entries.filter (! ·.1 == key)⟩

/-- The map with a value under a key; a key that is present keeps its place and its spelling. -/
def insert (m : FiniteMap κ ν) (key : κ) (value : ν) : FiniteMap κ ν :=
  if m.contains key then ⟨m.entries.map fun e => if e.1 == key then (e.1, value) else e⟩
  else ⟨(key, value) :: m.entries⟩

/-- The map of a list of entries, of which later ones overwrite earlier ones. -/
def ofList (entries : List (κ × ν)) : FiniteMap κ ν :=
  entries.foldl (fun m e => m.insert e.1 e.2) {}

end FiniteMap

/-- A finite set: distinct members, the newest first. -/
structure FiniteSet (α : Type) where
  members : List α := []

namespace FiniteSet

variable {α : Type} [BEq α]

def size (s : FiniteSet α) : Nat := s.members.length

def contains (s : FiniteSet α) (x : α) : Bool := s.members.contains x

/-- The set with a member; one that is equal to it stays as it is. -/
def insert (s : FiniteSet α) (x : α) : FiniteSet α := if s.contains x then s else ⟨x :: s.members⟩

def erase (s : FiniteSet α) (x : α) : FiniteSet α := ⟨s.members.filter (! · == x)⟩

def ofList (xs : List α) : FiniteSet α := xs.foldl insert {}

end FiniteSet

end LinearProbing
