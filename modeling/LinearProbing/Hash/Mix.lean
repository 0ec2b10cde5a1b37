/-!
# LinearProbing.Hash.Mix

**Spreading of hashes.** A multiplication by an odd constant close to the golden ratio scatters
neighbouring words, and folding the high half onto the low half brings the scattered bits down to
where a power-of-two table looks for them. Both steps lose nothing: they permute the words.
-/

namespace LinearProbing

/-- The golden ratio scaled to 32 bits. -/
def golden32 : UInt32 := 0x9E3779B9

/-- The golden ratio scaled to 64 bits. -/
def golden64 : UInt64 := 0x9E3779B97F4A7C15

/-- Spreads a 64-bit hash. The sixteen low bits together depend on all of its bits; fewer low bits do not depend on
the highest ones. -/
def mix64 (hash : UInt64) : UInt64 :=
  let x := hash * golden64
  let y := x ^^^ (x >>> 32)
  y ^^^ (y >>> 16)

/-- Spreads a 32-bit word. One fold is enough, as it reaches from the high half to the low one. -/
def mix32 (word : UInt32) : UInt32 :=
  let x := word * golden32
  x ^^^ (x >>> 16)

/-- The slot at which the search for a hash starts in a table of `capacity` slots. -/
def homeSlot (hash capacity : Nat) : Nat := hash % capacity

theorem homeSlot_lt {hash capacity : Nat} (h : 0 < capacity) : homeSlot hash capacity < capacity :=
  Nat.mod_lt _ h

end LinearProbing
