import LinearProbing.Hash.Key
import LinearProbing.Text

/-!
# LinearProbing.Hash.Choice

**Hashers to choose from, and keys without case.** Besides the content hash there are two poor hashers,
under which many keys collide: the sum of the bytes of a key, and a constant. `Caseless` strings are
equal up to the case of ASCII letters, so equal keys can be told apart by their spelling.
-/

namespace LinearProbing

/-- A string that is compared without regard to the case of ASCII letters. -/
structure Caseless where
  /-- The string as it was spelled. -/
  spelling : String

namespace Caseless

/-- The string in lower case. -/
def folded (k : Caseless) : String := k.spelling.map Char.toLower

instance : BEq Caseless := ⟨fun a b => a.folded == b.folded⟩

instance : ContentHash Caseless := ⟨fun state k => ContentHash.feed state k.folded⟩

instance : Render Caseless := ⟨fun k => Render.plain k.spelling, fun k => Render.detailed k.spelling⟩

end Caseless

/-- Keys that are hashed as a sequence of bytes. -/
class ByteKey (κ : Type) where
  bytes : κ → List UInt8

/-- A string is its UTF-8 bytes and an end mark that no string contains. -/
instance : ByteKey String := ⟨fun s => s.toUTF8.toList ++ [0xff]⟩

instance : ByteKey Caseless := ⟨fun k => ByteKey.bytes k.folded⟩

/-- A choice of hasher. -/
inductive HasherChoice where
  | content
  | seeded (seed : UInt64)
  | byteSum
  | constant (hash : UInt64)
  deriving DecidableEq

instance : Inhabited HasherChoice := ⟨.content⟩

instance {κ : Type} [Digest] [ContentHash κ] [ByteKey κ] : Hasher HasherChoice κ where
  rawHash
    | .content, key => contentHash key
    | .seeded seed, key => contentHash (seed, key)
    | .byteSum, key => (ByteKey.bytes key).foldl (fun sum b => sum + b.toUInt64) 0
    | .constant hash, _ => hash

end LinearProbing
