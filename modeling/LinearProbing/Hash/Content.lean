import LinearProbing.Word

/-!
# LinearProbing.Hash.Content

**Content hashes.** The content hash of a value is what a hasher gives for the value (`contentHash`); from it
comes the hash of a map or of a set, which is a wrapping sum over the entries and so does not depend on their
order.

The hasher is a parameter (`Digest`): all that is known of it is that it is fed with words and with bytes and
that a hash is read off in the end. What each kind of value feeds to it is fixed here (`ContentHash`).
-/

namespace LinearProbing

/-- A hasher: a state that takes words and bytes, from which a hash is read off. Numbers of all widths are
fed as words. -/
class Digest where
  State : Type
  start : State
  feedWord : State → UInt64 → State
  feedBytes : State → List UInt8 → State
  finish : State → UInt64

/-! ### Values -/

/-- Values that have a content hash: what they feed to a hasher. -/
class ContentHash (α : Type) where
  feed [Digest] : Digest.State → α → Digest.State

instance : ContentHash Int32 where
  feed s x := Digest.feedWord s x.toUInt32.toUInt64

instance : ContentHash Int64 where
  feed s x := Digest.feedWord s x.toUInt64

instance : ContentHash UInt64 where
  feed := Digest.feedWord

/-- A text is hashed as its UTF-8 bytes and an end mark that no text contains, so that texts in a row
are told apart. -/
instance : ContentHash String where
  feed s x := Digest.feedWord (Digest.feedBytes s x.toUTF8.toList) 0xff

instance {α β : Type} [ContentHash α] [ContentHash β] : ContentHash (α × β) where
  feed s x := ContentHash.feed (ContentHash.feed s x.1) x.2

/-- An optional value is hashed as the number of values and the value. -/
instance {α : Type} [ContentHash α] : ContentHash (Option α) where
  feed s
    | none => Digest.feedWord s 0
    | some x => ContentHash.feed (Digest.feedWord s 1) x

variable [Digest]

/-- The content hash of a value. -/
def contentHash {α : Type} [ContentHash α] (x : α) : UInt64 :=
  Digest.finish (ContentHash.feed Digest.start x)

/-- What one entry contributes to the hash of a map. -/
def entryHash {κ β : Type} [ContentHash κ] [ContentHash β] (e : κ × β) : UInt64 :=
  contentHash e.1 ^^^ contentHash e.2

/-- The hash of a map: the wrapping sum over its entries. -/
def mapContentHash {κ β : Type} [ContentHash κ] [ContentHash β] (entries : List (κ × β)) : UInt64 :=
  entries.foldl (fun acc e => acc + entryHash e) 0

/-- The hash of a set: the wrapping sum over its members. -/
def setContentHash {α : Type} [ContentHash α] (members : List α) : UInt64 :=
  members.foldl (fun acc x => acc + contentHash x) 0

end LinearProbing
