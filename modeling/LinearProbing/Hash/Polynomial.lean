import LinearProbing.Hash.Content

/-!
# LinearProbing.Hash.Polynomial

**A polynomial hasher.** Each word is added to the state, which is then multiplied by an odd constant; at the
end the state is rotated so that the well-mixed high bits come to the low end. Bytes are first folded to one
word by a product of two 64-bit halves.

Nothing that is said of containers depends on this hasher; it is one that can be run.
-/

namespace LinearProbing

/-! ### The state of the hash -/

/-- The multiplier of the polynomial hash. -/
def contentMultiplier : UInt64 := 0xf1357aea2e62a9c5

/-- The state after a further word. -/
def feedWord (state word : UInt64) : UInt64 :=
  (state + word) * contentMultiplier

/-- The hash read off the final state: the state rotated left by 26 bits. -/
def finishHash (state : UInt64) : UInt64 :=
  (state <<< 26) ||| (state >>> 38)

/-! ### Bytes -/

/-- The two halves of the 128-bit product of two words, folded by exclusive or. -/
def foldedProduct (x y : UInt64) : UInt64 :=
  let p := x.toNat * y.toNat
  UInt64.ofNat p ^^^ UInt64.ofNat (p / Nat.pow 2 64)

/-- The value of a list of bytes, least significant byte first. -/
def littleEndian : List UInt8 → UInt64
  | [] => 0
  | b :: rest => b.toUInt64 ||| (littleEndian rest <<< 8)

/-- Initial value of the first half of the byte hash. -/
def byteSeed0 : UInt64 := 0x243f6a8885a308d3

/-- Initial value of the second half of the byte hash. -/
def byteSeed1 : UInt64 := 0x13198a2e03707344

/-- The word mixed into each full chunk of a long text. -/
def byteStep : UInt64 := 0xa4093822299f31d0

/-- Folds the chunks of 16 bytes of a long text into the two halves, leaving out the last chunk,
full or not: at most 16 bytes, which are hashed from the end of the text instead. -/
def foldChunks : (chunks : Nat) → List UInt8 → UInt64 × UInt64 → UInt64 × UInt64
  | 0, _, halves => halves
  | chunks + 1, bytes, (s0, s1) =>
    let x := littleEndian (bytes.take 8)
    let y := littleEndian ((bytes.drop 8).take 8)
    foldChunks chunks (bytes.drop 16) (s1, foldedProduct (s0 ^^^ x) (byteStep ^^^ y))

/-- The two halves of the byte hash before the final product. Up to 16 bytes are read from both ends,
so that short texts need no loop. -/
def byteHalves (bytes : List UInt8) : UInt64 × UInt64 :=
  let n := bytes.length
  if n = 0 then (byteSeed0, byteSeed1)
  else if n < 4 then
    let first := bytes.headD 0
    let middle := bytes.getD (n / 2) 0
    let last := bytes.getD (n - 1) 0
    (byteSeed0 ^^^ first.toUInt64, byteSeed1 ^^^ ((last.toUInt64 <<< 8) ||| middle.toUInt64))
  else if n < 8 then
    (byteSeed0 ^^^ littleEndian (bytes.take 4), byteSeed1 ^^^ littleEndian (bytes.drop (n - 4)))
  else if n ≤ 16 then
    (byteSeed0 ^^^ littleEndian (bytes.take 8), byteSeed1 ^^^ littleEndian (bytes.drop (n - 8)))
  else
    let (s0, s1) := foldChunks ((n - 1) / 16) bytes (byteSeed0, byteSeed1)
    let tail := bytes.drop (n - 16)
    (s0 ^^^ littleEndian (tail.take 8), s1 ^^^ littleEndian (tail.drop 8))

/-- The hash of a list of bytes, its length included. -/
def hashBytes (bytes : List UInt8) : UInt64 :=
  let (s0, s1) := byteHalves bytes
  foldedProduct s0 s1 ^^^ UInt64.ofNat bytes.length

/-! ### The hasher -/

instance : Digest where
  State := UInt64
  start := 0
  feedWord := feedWord
  feedBytes state bytes := feedWord state (hashBytes bytes)
  finish := finishHash

end LinearProbing
