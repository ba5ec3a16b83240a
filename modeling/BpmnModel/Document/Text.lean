import BpmnModel.Document.Node

/-!
# The text of documents

* `Document.toText` — the text of a document, one item a line. Attributes and children that are
  empty are left out. Models `Document.to_json_pretty`.
* `Document.ofText?` — reads such a text. A node may also be an array of its label, attributes and
  children, and members with other names are passed over. Arrays and objects of the document nest
  at most `Document.nestingLimit` deep. Models `Document.from_json`.
-/

namespace BpmnModel

namespace Value

/-- The written form of a value. -/
def toJson : Value → Json
  | flag b => .flag b
  | integer n => .integer n.toInt
  | text s => .text (some s)
  | list items => .array (items.map fun s => .text (some s))

/-- A text without stray surrogates. -/
def textOfJson? : Json → Option String
  | .text s => s
  | _ => none

/-- Reads a value with `depth` levels of nesting left. -/
def ofJson? (depth : Nat) : Json → Option Value
  | .flag b => some (flag b)
  | .integer n =>
    if -9223372036854775808 ≤ n ∧ n ≤ 9223372036854775807 then some (integer (Int64.ofInt n))
    else none
  | .text s => s.map text
  | .array items => if depth = 0 then none else (items.mapM textOfJson?).map list
  | .null | .real | .object _ => none

end Value

namespace Attributes

/-- The written form of attributes. -/
def toJson (as : Attributes) : Json :=
  .object (as.entries.map fun (name, value) => (some name, value.toJson))

/-- Reads one attribute with `depth` levels of nesting left. -/
def entryOfJson? (depth : Nat) : Option String × Json → Option (String × Value)
  | (none, _) => none
  | (some name, json) => (Value.ofJson? depth json).map (name, ·)

/-- Reads attributes with `depth` levels of nesting left. Of several values of one attribute the
last counts, in the place of the first. -/
def ofJson? : (depth : Nat) → Json → Option Attributes
  | depth + 1, .object members => (members.mapM (entryOfJson? depth)).map ofList
  | _, _ => none

end Attributes

namespace Node

mutual

/-- The written form of a node. -/
def toJson : Node → Json
  | ⟨label, attributes, children⟩ =>
    .object
      ((some "label", .text (some label)) ::
        ((if attributes.entries.isEmpty then []
          else [(some "attributes", attributes.toJson)]) ++
          (if children.isEmpty then [] else [(some "children", .array (allToJson children))])))

/-- The written forms of nodes. -/
def allToJson : List Node → List Json
  | [] => []
  | n :: ns => n.toJson :: allToJson ns

end

/-- The parts that a written node names. -/
structure Parts where
  label : Option Json
  attributes : Option Json
  children : Option Json

/-- Adds a member to the parts. The three names may come once each, a member without a name must
not come, and any other is passed over. -/
def Parts.add (p : Parts) (member : Option String × Json) : Option Parts :=
  match member.1 with
  | none => none
  | some "label" => if p.label.isSome then none else some { p with label := some member.2 }
  | some "attributes" =>
    if p.attributes.isSome then none else some { p with attributes := some member.2 }
  | some "children" =>
    if p.children.isSome then none else some { p with children := some member.2 }
  | some _ => some p

/-- The parts of a written node: members of an object, or up to three items of an array. -/
def parts? : Json → Option Parts
  | .object members => members.foldlM Parts.add ⟨none, none, none⟩
  | .array [label] => some ⟨some label, none, none⟩
  | .array [label, attributes] => some ⟨some label, some attributes, none⟩
  | .array [label, attributes, children] => some ⟨some label, some attributes, some children⟩
  | _ => none

mutual

/-- Reads a node with `depth` levels of nesting left. -/
def ofJson? : (depth : Nat) → Json → Option Node
  | 0, _ => none
  | depth + 1, json => do
    let parts ← parts? json
    let label ← parts.label.bind Value.textOfJson?
    let attributes ←
      match parts.attributes with
      | none => some Attributes.empty
      | some json => Attributes.ofJson? depth json
    let children ←
      match parts.children with
      | none => some []
      | some json => allOfJson? depth json
    return ⟨label, attributes, children⟩

/-- Reads an array of nodes with `depth` levels of nesting left. -/
def allOfJson? : (depth : Nat) → Json → Option (List Node)
  | depth + 1, .array items => items.mapM (ofJson? depth)
  | _, _ => none

end

/-- The text of a node without blanks. -/
def toCompactText (n : Node) : String :=
  n.toJson.render .compact

end Node

namespace Document

/-- How deep arrays and objects may nest in a text. -/
def nestingLimit : Nat := 127

/-- The text of a document, indented. -/
def toText (d : Document) : String :=
  d.root.toJson.render .pretty

/-- The document that a text holds. -/
def ofText? (text : String) : Option Document :=
  ((Json.parse text).bind (Node.ofJson? nestingLimit)).map Document.mk

end Document

end BpmnModel
