import BpmnModel.Digit
import BpmnModel.Toml.Layout

/-!
# Strings and keys in TOML

* `readText` — a string of one of four kinds: basic ones with escapes or literal ones without, on one
  line or, between three quotes on each side, on several.
* `readKey` — a key: names with dots between them, bare or quoted.

Each reader takes what is left of the text and gives what it has read with what is left after it.
-/

namespace BpmnModel

namespace Toml

/-- The character that a single letter after a backslash stands for. -/
def unescape? : Char → Option Char
  | 'b' => some '\x08'
  | 't' => some '\t'
  | 'n' => some '\n'
  | 'f' => some '\x0c'
  | 'r' => some '\r'
  | 'e' => some '\x1b'
  | '"' => some '"'
  | '\\' => some '\\'
  | _ => none

/-- How many hexadecimal digits follow a letter after a backslash. -/
def escapeWidth? : Char → Option Nat
  | 'x' => some 2
  | 'u' => some 4
  | 'U' => some 8
  | _ => none

/-- The character whose number the hexadecimal digits spell. A surrogate is no character. -/
def charOfHex? (digits : List Char) : Option Char :=
  match Digit.number? 16 digits with
  | some n => if n < 0xD800 ∨ (0xE000 ≤ n ∧ n < 0x110000) then some (Char.ofNat n) else none
  | none => none

/-- Reads an escape after its backslash. -/
def readEscape : List Char → Option (Char × List Char)
  | [] => none
  | c :: rest =>
    match escapeWidth? c with
    | some width =>
      if width ≤ rest.length then (charOfHex? (rest.take width)).map (·, rest.drop width) else none
    | none => (unescape? c).map (·, rest)

/-- The end of a string: the quotes before the closing ones that still belong to the string, at most
two and only if it may go over several lines, and what is left after the closing ones. -/
def readClosing (quote : Char) (lines : Bool) (cs : List Char) : Option (List Char × List Char) :=
  let quotes := cs.takeWhile (· = quote)
  if lines then
    if quotes.length < 3 then none
    else
      let own := min 2 (quotes.length - 3)
      some (quotes.take own, cs.drop (own + 3))
  else if quotes.isEmpty then none
  else some ([], cs.drop 1)

/-- Whether the first character stands for itself in a string, which may go over several lines or
not. -/
def standsForItself (lines : Bool) : List Char → Bool
  | [] => false
  | c :: rest => isPlain c || (lines && (skipBreak? (c :: rest)).isSome)

/-- Reads a literal string after its opening quotes. The characters read so far are in `done`, last
one first. -/
def readLiteral (lines : Bool) (done : List Char) : List Char → Option (String × List Char)
  | [] => none
  | c :: rest =>
    match readClosing '\'' lines (c :: rest) with
    | some (own, rest) => some (String.ofList (done.reverse ++ own), rest)
    | none => if standsForItself lines (c :: rest) then readLiteral lines (c :: done) rest else none

/-- Reads a basic string after its opening quotes, in at most `steps` steps. The characters read so
far are in `done`, last one first. A backslash at the end of a line hides all blanks and line breaks
after it. -/
def readBasic (lines : Bool) :
    (steps : Nat) → (done : List Char) → List Char → Option (String × List Char)
  | 0, _, _ => none
  | _ + 1, _, [] => none
  | steps + 1, done, c :: rest =>
    match readClosing '"' lines (c :: rest) with
    | some (own, rest) => some (String.ofList (done.reverse ++ own), rest)
    | none =>
      if c = '\\' then
        match readEscape rest with
        | some (c, rest) => readBasic lines steps (c :: done) rest
        | none =>
          if lines && (skipBreak? (skipBlanks rest)).isSome then
            readBasic lines steps done (skipSpace rest)
          else none
      else if standsForItself lines (c :: rest) then readBasic lines steps (c :: done) rest
      else none

/-- Reads a string of any kind from its opening quotes on. A line break right after three of them is
not part of it. -/
def readText : List Char → Option (String × List Char)
  | '"' :: '"' :: '"' :: rest => readBasic true rest.length [] (skipBreak rest)
  | '"' :: rest => readBasic false rest.length [] rest
  | '\'' :: '\'' :: '\'' :: rest => readLiteral true [] (skipBreak rest)
  | '\'' :: rest => readLiteral false [] rest
  | _ => none

/-- Whether a character may stand in a key without quotes. -/
def isBare (c : Char) : Bool :=
  c.isAlphanum || c = '_' || c = '-'

/-- A key: the names of the tables on the way, and the name in the last of them. -/
structure Key where
  path : List String
  name : String
deriving DecidableEq, Repr

/-- Reads one name of a key with the blanks around it. It is on one line. -/
def readName (cs : List Char) : Option (String × List Char) :=
  let name :=
    match skipBlanks cs with
    | '"' :: rest => readBasic false rest.length [] rest
    | '\'' :: rest => readLiteral false [] rest
    | cs =>
      let name := cs.takeWhile isBare
      if name.isEmpty then none else some (String.ofList name, cs.dropWhile isBare)
  name.map fun (name, rest) => (name, skipBlanks rest)

/-- Reads a key of at most `names` names. -/
def readNames : (names : Nat) → List Char → Option (Key × List Char)
  | 0, _ => none
  | names + 1, cs =>
    match readName cs with
    | none => none
    | some (name, '.' :: rest) =>
      (readNames names rest).map fun (key, rest) => (⟨name :: key.path, key.name⟩, rest)
    | some (name, rest) => some (⟨[], name⟩, rest)

/-- Reads a key with the blanks around it. -/
def readKey (cs : List Char) : Option (Key × List Char) :=
  readNames (cs.length + 1) cs

end Toml

end BpmnModel
