import BpmnModel.Document.Error
import BpmnModel.Quantity

/-!
# Reading the fields of a node

Each reader looks at one attribute and asks for its shape. `Node.finish` then refuses the first
attribute that is not among the names a reader of this label knows, so that each label has a closed
set of attributes.

The readers model the methods by which the import takes attributes: `string`, `required_string`,
`required_id`, `reference`, `references`, `strings`, `bool`, `flag`, `integer`, `count`,
`vocabulary` and `finish`. `Node.content` and `Node.noContent` model `content` and `no_content`.
-/

namespace BpmnModel

namespace Node

/-- The refusal of an attribute of another shape. -/
def invalid (n : Node) (name : String) (expected : Expectation) (found : Value) : DocumentError :=
  .invalidValue n.label name expected found

/-- An optional text. -/
def text? (n : Node) (name : String) : Reading (Option String) :=
  match n.attribute? name with
  | none => .ok none
  | some (.text s) => .ok (some s)
  | some v => .error (n.invalid name .string v)

/-- A text that has to be there. -/
def text (n : Node) (name : String) : Reading String := do
  match ← n.text? name with
  | some s => return s
  | none => throw (.missingAttribute n.label name)

/-- An optional reference. -/
def ref? {r : Requirement} (n : Node) (name : String) : Reading (Option (Ref r)) := do
  return (← n.text? name).map fun s => ⟨⟨s⟩⟩

/-- A reference that has to be there. -/
def ref {r : Requirement} (n : Node) (name : String) : Reading (Ref r) := do
  return ⟨⟨← n.text name⟩⟩

/-- The identifier of the node. -/
def id (n : Node) : Reading Id := do
  return ⟨← n.text "id"⟩

/-- A list of texts; none is the empty list. -/
def texts (n : Node) (name : String) : Reading (List String) :=
  match n.attribute? name with
  | none => .ok []
  | some (.list items) => .ok items
  | some v => .error (n.invalid name .list v)

/-- A list of references; none is the empty list. -/
def refs {r : Requirement} (n : Node) (name : String) : Reading (List (Ref r)) := do
  return (← n.texts name).map fun s => ⟨⟨s⟩⟩

/-- An optional flag. -/
def flag? (n : Node) (name : String) : Reading (Option Bool) :=
  match n.attribute? name with
  | none => .ok none
  | some (.flag b) => .ok (some b)
  | some v => .error (n.invalid name .boolean v)

/-- A flag with a default. -/
def flag (n : Node) (name : String) (standard : Bool) : Reading Bool := do
  return (← n.flag? name).getD standard

/-- An optional integer. -/
def integer? (n : Node) (name : String) : Reading (Option Int) :=
  match n.attribute? name with
  | none => .ok none
  | some (.integer i) => .ok (some i.toInt)
  | some v => .error (n.invalid name .integer v)

/-- An optional integer that fits 32 unsigned bits. -/
def count? (n : Node) (name : String) : Reading (Option UInt32) :=
  match n.attribute? name with
  | none => .ok none
  | some (.integer i) =>
    match countOfInt? i.toInt with
    | some c => .ok (some c)
    | none => .error (n.invalid name .count (.integer i))
  | some v => .error (n.invalid name .count v)

/-- A member of a vocabulary; none is the default member. -/
def word {α : Type} [Vocabulary α] [Inhabited α] (n : Node) (name : String) : Reading α := do
  match ← n.text? name with
  | none => return default
  | some s => checked (Vocabulary.parse s)

/-- The first attribute that is not among `known`. -/
def stranger? (n : Node) (known : List String) : Option String :=
  n.attributes.names.find? (fun name => !known.contains name)

/-- What messages call the node: its identifier if it has one, else its label. -/
def title (n : Node) : String :=
  match n.attribute? "id" with
  | some (.text id) => id
  | _ => n.label

/-- Refuses attributes that are not among `known`. -/
def finish (n : Node) (known : List String) : Reading Unit :=
  match n.stranger? known with
  | none => .ok ()
  | some name =>
    .error (.model (.configuration n.title s!"unrecognized attribute `{name}` for `{n.label}`"))

/-- The refusal of a child with this label. -/
def unknownChild (n : Node) (child : String) : DocumentError :=
  .unknownLabel child n.label

/-- Whether the node documents its parent. -/
def isDocumentation (n : Node) : Bool :=
  n.label = "documentation"

/-- The children that do not document the node. -/
def content (n : Node) : List Node :=
  n.children.filter (!·.isDocumentation)

/-- Refuses the first child that does not document the node. -/
def noContent (n : Node) : Reading Unit :=
  match n.content with
  | [] => .ok ()
  | child :: _ => .error (n.unknownChild child.label)

end Node

end BpmnModel
