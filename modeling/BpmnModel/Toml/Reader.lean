import BpmnModel.Toml.Moment
import BpmnModel.Toml.Value

/-!
# Reading TOML

* `readValue` — a value, with lists and tables in it nested to a limit.
* `Toml.parse` — a whole document: keys with values and headers, each on a line of its own.

Each reader takes what is left of the text and gives what it has read with what is left after it.
-/

namespace BpmnModel

namespace Toml

/-- Whether a character belongs to a word. -/
def isWordPart (c : Char) : Bool :=
  c ∉ [' ', '\t', '\r', '\n', '#', '=', ',', '[', ']', '{', '}']

/-- The value that a word spells. -/
def Value.ofWord? (word : List Char) : Option Value :=
  if word = "true".toList then some (.flag true)
  else if word = "false".toList then some (.flag false)
  else
    match Number.ofWord? word with
    | some n => some (.number n)
    | none => if isMoment word then some .moment else none

/-- Reads a word. One space may stand in it, between a date and a time of day. -/
def readWord (cs : List Char) : Option (Value × List Char) :=
  let word := cs.takeWhile isWordPart
  match cs.dropWhile isWordPart with
  | ' ' :: rest =>
    let time := rest.takeWhile isWordPart
    if time.isEmpty then (Value.ofWord? word).map (·, ' ' :: rest)
    else (Value.ofWord? (word ++ ' ' :: time)).map (·, rest.dropWhile isWordPart)
  | rest => (Value.ofWord? word).map (·, rest)

mutual

/-- Reads a value, with at most `depth` lists and tables around the innermost one. -/
def readValue : (fuel depth : Nat) → List Char → Option (Value × List Char)
  | 0, _, _ => none
  | fuel + 1, depth, cs =>
    match cs with
    | '"' :: _ => (readText cs).map fun (s, rest) => (.text s, rest)
    | '\'' :: _ => (readText cs).map fun (s, rest) => (.text s, rest)
    | '[' :: rest =>
      if depth = 0 then none
      else (readItems fuel (depth - 1) rest).map fun (items, rest) => (.list items, rest)
    | '{' :: rest =>
      if depth = 0 then none
      else (readEntries fuel (depth - 1) [] rest).map fun (es, rest) => (.table .inline es, rest)
    | cs => readWord cs

/-- Reads the items of a list up to and including the closing bracket. -/
def readItems : (fuel depth : Nat) → List Char → Option (List Value × List Char)
  | 0, _, _ => none
  | fuel + 1, depth, cs =>
    match skipLines false cs with
    | ']' :: rest => some ([], rest)
    | cs =>
      match readValue fuel depth cs with
      | none => none
      | some (item, rest) =>
        match skipLines false rest with
        | ',' :: rest => (readItems fuel depth rest).map fun (items, rest) => (item :: items, rest)
        | ']' :: rest => some ([item], rest)
        | _ => none

/-- Reads further entries of a table between braces, up to and including the closing one. -/
def readEntries : (fuel depth : Nat) → Entries → List Char → Option (Entries × List Char)
  | 0, _, _, _ => none
  | fuel + 1, depth, es, cs =>
    match skipLines false cs with
    | '}' :: rest => some (es, rest)
    | cs =>
      match readKey cs with
      | some (key, '=' :: rest) =>
        match readValue fuel depth (skipBlanks rest) with
        | none => none
        | some (value, rest) =>
          match es.add key value .inline with
          | none => none
          | some es =>
            match skipLines false rest with
            | ',' :: rest => readEntries fuel depth es rest
            | '}' :: rest => some (es, rest)
            | _ => none
      | _ => none

end

/-- How deep lists and tables between braces may be nested. -/
def maxDepth : Nat := 80

/-- A document under way: its entries, and the way to the table that is open. -/
structure Draft where
  entries : Entries
  header : List String

namespace Draft

/-- Opens a table. -/
def openTable (d : Draft) (key : Key) : Option Draft :=
  (d.entries.openTable key).map (⟨·, key.path ++ [key.name]⟩)

/-- Opens a further one of the tables that share a header. -/
def openRow (d : Draft) (key : Key) : Option Draft :=
  (d.entries.openRow key).map (⟨·, key.path ++ [key.name]⟩)

/-- Adds a value to the table that is open. -/
def add (d : Draft) (key : Key) (value : Value) : Option Draft :=
  (d.entries.addBelow d.header key value).map (⟨·, d.header⟩)

end Draft

/-- Reads a header, or a key with its value. -/
def readStatement (d : Draft) : List Char → Option (Draft × List Char)
  | '[' :: '[' :: rest =>
    match readKey rest with
    | some (key, ']' :: ']' :: rest) => (d.openRow key).map (·, rest)
    | _ => none
  | '[' :: rest =>
    match readKey rest with
    | some (key, ']' :: rest) => (d.openTable key).map (·, rest)
    | _ => none
  | cs =>
    match readKey cs with
    | some (key, '=' :: rest) =>
      match readValue (2 * rest.length + 2) maxDepth (skipBlanks rest) with
      | some (value, rest) => (d.add key value).map (·, rest)
      | none => none
    | _ => none

/-- Reads lines, of which there are at most `lines`. -/
def readLines : (lines : Nat) → Draft → List Char → Option Entries
  | _, d, [] => some d.entries
  | 0, _, _ :: _ => none
  | lines + 1, d, cs =>
    match skipLine? cs with
    | some rest => readLines lines d rest
    | none =>
      match readStatement d (skipBlanks cs) with
      | none => none
      | some (d, rest) =>
        match skipLine? rest with
        | some rest => readLines lines d rest
        | none => none

/-- What is left of a text after the mark of its encoding, if it begins with one. -/
def skipMark : List Char → List Char
  | '\ufeff' :: rest => rest
  | cs => cs

/-- Reads a whole document. -/
def parse (text : String) : Option Entries :=
  let cs := skipMark text.toList
  readLines cs.length ⟨[], []⟩ cs

end Toml

end BpmnModel
