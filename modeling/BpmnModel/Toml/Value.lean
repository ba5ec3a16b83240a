import BpmnModel.Toml.Number
import BpmnModel.Toml.Text

/-!
# TOML values

* `Toml.Value` — what may stand under a name.
* `Entries.change` — the one way to a table inside of tables, for headers and for keys with dots.
* `Entries.add`, `Entries.openTable`, `Entries.openRow` — a key with its value, a table with a header,
  and a further row of tables that share a header.

A document must not define a table twice. How a table came about decides who may still put something
into it.
-/

namespace BpmnModel

namespace Toml

/-- How a table came about. -/
inductive Origin where
  /-- By a header; so did the document itself. -/
  | written
  /-- On the way to a table with a header. -/
  | implied
  /-- On the way of a key with dots. -/
  | dotted
  /-- As a value between braces. -/
  | inline
deriving DecidableEq, Repr

/-- What may stand under a name. -/
inductive Value where
  | text (value : String)
  | number (value : Number)
  | flag (value : Bool)
  /-- A date, a time of day or both. -/
  | moment
  | list (items : List Value)
  | table (origin : Origin) (entries : List (String × Value))
  /-- The tables that share a header, of which the last one is open. -/
  | rows (earlier : List Value) (last : List (String × Value))

/-- What a table holds, in the order of its first appearance. -/
abbrev Entries := List (String × Value)

/-- What leads to a table. -/
inductive Way where
  /-- The names in a header. -/
  | header
  /-- The names before the last one in a key. -/
  | key
deriving DecidableEq, Repr

namespace Way

/-- What a table is that comes about on the way. -/
def made : Way → Origin
  | header => .implied
  | key => .dotted

/-- Whether the way may lead on into a table. -/
def enters : Way → Origin → Bool
  | header, origin => origin ≠ .inline
  | key, origin => origin = .implied || origin = .dotted

end Way

namespace Entries

/-- Puts another value under a name. -/
def replace (es : Entries) (name : String) (value : Value) : Entries :=
  es.map fun (n, v) => if n = name then (n, value) else (n, v)

/-- Changes the table that the names lead to, which comes about if it is not there. Of tables that
share a header the way leads to the last one. -/
def change (way : Way) (f : Origin → Entries → Option Entries) :
    (names : List String) → Origin → Entries → Option Entries
  | [], origin, es => f origin es
  | name :: names, _, es =>
    match es.lookup name with
    | none => (change way f names way.made []).map fun t => es ++ [(name, .table way.made t)]
    | some (.table origin t) =>
      if way.enters origin then
        (change way f names origin t).map fun t => es.replace name (.table origin t)
      else none
    | some (.rows earlier last) =>
      (change way f names .written last).map fun last => es.replace name (.rows earlier last)
    | some _ => none

/-- Adds a value under a key. A table that came about by keys with dots takes only such keys, and all
others take only keys without. -/
def add (key : Key) (value : Value) : Origin → Entries → Option Entries :=
  change .key
    (fun origin es =>
      if decide (origin = .dotted) = key.path.isEmpty then none
      else if (es.lookup key.name).isSome then none
      else some (es ++ [(key.name, value)]))
    key.path

/-- Opens the table with a header. It may have come about before on the way to others. -/
def openTable (key : Key) (es : Entries) : Option Entries :=
  change .header
    (fun _ es =>
      match es.lookup key.name with
      | none => some (es ++ [(key.name, .table .written [])])
      | some (.table .implied t) => some (es.replace key.name (.table .written t))
      | some _ => none)
    key.path .written es

/-- Opens a further one of the tables that share a header. -/
def openRow (key : Key) (es : Entries) : Option Entries :=
  change .header
    (fun _ es =>
      match es.lookup key.name with
      | none => some (es ++ [(key.name, .rows [] [])])
      | some (.rows earlier last) =>
        some (es.replace key.name (.rows (earlier ++ [.table .written last]) []))
      | some _ => none)
    key.path .written es

/-- Adds a value under a key in the table that a header leads to. -/
def addBelow (header : List String) (key : Key) (value : Value) (es : Entries) : Option Entries :=
  change .header (add key value) header .written es

end Entries

end Toml

end BpmnModel
