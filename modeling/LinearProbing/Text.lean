import LinearProbing.Text.Shapeless
import LinearProbing.Word

/-!
# LinearProbing.Text

**The texts of values and containers.** Every value has two texts: a plain one, which shows just the
value, and a detailed one, in which strings are quoted and optional values say whether they are there.
A map is written `{k=v, k=v}` in plain text and `{k: v, k: v}` in detail, a set `{a, b}` in both.
-/

namespace LinearProbing

/-- Values with a plain and a detailed text. -/
class Render (α : Type) where
  plain : α → String
  /-- The value with its quotes and marks. -/
  detailed : α → String

/-! ### Quoted strings -/

/-- The hexadecimal digits of a number, in lower case. -/
def hexDigits (n : Nat) : List Char := Nat.toDigits 16 n

/-- A character inside quotes. -/
def quotedChar (c : Char) : List Char :=
  if c = '"' then ['\\', '"']
  else if c = '\\' then ['\\', '\\']
  else if c = '\n' then ['\\', 'n']
  else if c = '\t' then ['\\', 't']
  else if c = '\r' then ['\\', 'r']
  else if c.val = 0 then ['\\', '0']
  else if isShapeless c then ['\\', 'u', '\x7b'] ++ hexDigits c.toNat ++ ['\x7d']
  else [c]

/-- A string between double quotes. -/
def quoted (s : String) : String :=
  String.ofList ('"' :: s.toList.flatMap quotedChar ++ ['"'])

/-! ### Values -/

/-- A word in decimal. -/
def wordText {α : Type} [SignedWord α] (x : α) : String := Int.repr (SignedWord.toInt x)

instance {α : Type} [SignedWord α] : Render α := ⟨wordText, wordText⟩

instance : Render String := ⟨id, quoted⟩

/-- A value that may be null. -/
instance {α : Type} [Render α] : Render (Option α) where
  plain
    | none => "null"
    | some x => Render.plain x
  detailed
    | none => "None"
    | some x => "Some(" ++ Render.detailed x ++ ")"

/-- A pair is shown the same way in plain text as in detail, apart from its components. -/
instance {α β : Type} [Render α] [Render β] : Render (α × β) where
  plain p := "(" ++ Render.plain p.1 ++ ", " ++ Render.plain p.2 ++ ")"
  detailed p := "(" ++ Render.detailed p.1 ++ ", " ++ Render.detailed p.2 ++ ")"

/-! ### Containers -/

/-- Parts between braces, with commas between them. -/
def braced (parts : List String) : String := "\x7b" ++ String.intercalate ", " parts ++ "\x7d"

/-- The plain text of a map. -/
def plainMap {κ ν : Type} [Render κ] [Render ν] (entries : List (κ × ν)) : String :=
  braced (entries.map fun e => Render.plain e.1 ++ "=" ++ Render.plain e.2)

/-- The detailed text of a map. -/
def detailedMap {κ ν : Type} [Render κ] [Render ν] (entries : List (κ × ν)) : String :=
  braced (entries.map fun e => Render.detailed e.1 ++ ": " ++ Render.detailed e.2)

/-- The plain text of a set. -/
def plainSet {α : Type} [Render α] (members : List α) : String := braced (members.map Render.plain)

/-- The detailed text of a set. -/
def detailedSet {α : Type} [Render α] (members : List α) : String :=
  braced (members.map Render.detailed)

end LinearProbing
