import LinearProbing.ValueMap

/-!
# LinearProbing.WordKeyMap

**Maps from words to values.** The keys lie inline in the slots. A slot is vacant when it holds neither
a value nor a null; the key of an entry that is gone stays behind and means nothing.
-/

namespace LinearProbing

/-- A slot with a word and, unless it is vacant, a value or a null. -/
structure WordSlot (κ ν : Type) where
  /-- The key; in a vacant slot it is left from earlier. -/
  key : κ
  /-- What is stored, `none` in a vacant slot. -/
  held : Option (Option ν)

instance {κ ν : Type} [SignedWord κ] : EntrySlot (WordSlot κ ν) κ ν where
  layout :=
    { empty := ⟨SignedWord.zero, none⟩
      entryIn? := fun s => s.held.map (s.key, ·)
      hash := fun s => SignedWord.spread s.key
      occupy := fun _ key stored => ⟨key, some stored⟩
      leave := fun s => { s with held := none } }

abbrev WordKeyMap (κ ν : Type) : Type := ValueMap (WordSlot κ ν) Spreading κ ν

end LinearProbing
