/-!
# JSON values

* `Json` — what a JSON text denotes, with members in order and repetitions kept.
* `Json.render` — the text of a value in a `Layout`: without blanks, or indented by two spaces.

A string may hold half of a surrogate pair; it denotes no text and is `Json.text none`. Numbers with
a fraction, an exponent, or a minus sign before zero are `Json.real`: nothing here needs their value.
-/

namespace BpmnModel

/-- The value of a JSON text. -/
inductive Json where
  | null
  | flag (value : Bool)
  | integer (value : Int)
  | real
  | text (value : Option String)
  | array (items : List Json)
  | object (members : List (Option String × Json))

namespace Json

/-- The lower-case hexadecimal digit of a number below sixteen. -/
def hexDigit (n : Nat) : Char :=
  Char.ofNat (if n < 10 then 48 + n else 87 + n)

/-- A character as it stands inside quotes. -/
def escape (c : Char) : List Char :=
  if c = '"' then ['\\', '"']
  else if c = '\\' then ['\\', '\\']
  else if c = '\x08' then ['\\', 'b']
  else if c = '\x0c' then ['\\', 'f']
  else if c = '\n' then ['\\', 'n']
  else if c = '\r' then ['\\', 'r']
  else if c = '\t' then ['\\', 't']
  else if c.toNat < 32 then
    ['\\', 'u', '0', '0', hexDigit (c.toNat / 16), hexDigit (c.toNat % 16)]
  else [c]

/-- A text in quotes. -/
def quote (s : String) : List Char :=
  '"' :: (s.toList.flatMap escape ++ ['"'])

/-- A string in quotes. Half of a surrogate pair stands for a string that denotes no text. -/
def quote? : Option String → List Char
  | some s => quote s
  | none => ['"', '\\', 'u', 'd', '8', '0', '0', '"']

/-- The decimal digits of an integer, after a minus sign if it is negative. -/
def digits (n : Int) : List Char :=
  if n < 0 then '-' :: Nat.toDigits 10 n.natAbs else Nat.toDigits 10 n.natAbs

/-- Where a rendering has blanks. -/
structure Layout where
  /-- What goes before an item at a depth, and before the closing bracket of that depth. -/
  lineBreak : Nat → List Char
  /-- What goes between a key and its value. -/
  colon : List Char

namespace Layout

/-- No blanks. -/
def compact : Layout := ⟨fun _ => [], [':']⟩

/-- One item a line, two spaces for each depth, a space after the colon. -/
def pretty : Layout := ⟨fun depth => '\n' :: List.replicate (2 * depth) ' ', [':', ' ']⟩

end Layout

mutual

/-- The text of a value at a depth. -/
def renderAt (l : Layout) (depth : Nat) : Json → List Char
  | null => ['n', 'u', 'l', 'l']
  | flag true => ['t', 'r', 'u', 'e']
  | flag false => ['f', 'a', 'l', 's', 'e']
  | integer n => digits n
  | real => ['-', '0']
  | text s => quote? s
  | array [] => ['[', ']']
  | array (item :: items) =>
    '[' :: (l.lineBreak (depth + 1) ++ renderAt l (depth + 1) item ++
      renderItems l (depth + 1) items ++ l.lineBreak depth ++ [']'])
  | object [] => ['{', '}']
  | object ((key, value) :: members) =>
    '{' :: (l.lineBreak (depth + 1) ++ quote? key ++ l.colon ++ renderAt l (depth + 1) value ++
      renderMembers l (depth + 1) members ++ l.lineBreak depth ++ ['}'])

/-- The texts of items after the first. -/
def renderItems (l : Layout) (depth : Nat) : List Json → List Char
  | [] => []
  | item :: items =>
    ',' :: (l.lineBreak depth ++ renderAt l depth item ++ renderItems l depth items)

/-- The texts of members after the first. -/
def renderMembers (l : Layout) (depth : Nat) : List (Option String × Json) → List Char
  | [] => []
  | (key, value) :: members =>
    ',' :: (l.lineBreak depth ++ quote? key ++ l.colon ++ renderAt l depth value ++
      renderMembers l depth members)

end

/-- The text of a value. -/
def render (l : Layout) (json : Json) : String :=
  String.ofList (renderAt l 0 json)

end Json

end BpmnModel
