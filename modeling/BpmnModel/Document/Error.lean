import BpmnModel.Document.Node
import BpmnModel.ModelError

/-!
# Errors of documents

* `DocumentError` — why a text is no document, a document no model, or a model has no document.
  Models `DocumentError`.
* `DocumentError.message` — the wording of each.
-/

namespace BpmnModel

/-- What an attribute was expected to be. -/
inductive Expectation where
  | string
  | list
  | boolean
  | integer
  | count
deriving DecidableEq

/-- The expectation in words. -/
def Expectation.describe : Expectation → String
  | string => "string"
  | list => "list"
  | boolean => "boolean"
  | integer => "integer"
  | count => "non-negative integer"

/-- What a model may hold and a document cannot. -/
inductive Feature where
  | extensions
  | extensionValues
  | dataSpecification
  | resourceRoles
  | correlationSubscriptions
  | correlationKeys
  | associationMappings
deriving DecidableEq

/-- The feature in words. -/
def Feature.describe : Feature → String
  | extensions => "extensions"
  | extensionValues => "extension values"
  | dataSpecification => "an I/O specification"
  | resourceRoles => "resource roles"
  | correlationSubscriptions => "correlation subscriptions"
  | correlationKeys => "correlation keys"
  | associationMappings => "association mappings"

/-- Why a model could not be read from a document or written to one. -/
inductive DocumentError where
  /-- The text is not a tree of nodes. -/
  | unreadable
  /-- The root has another label than that of a scope. -/
  | unexpectedRoot (label : String)
  /-- A node stands where it cannot. -/
  | unknownLabel (label parent : String)
  /-- A required attribute, or a required child, is missing. -/
  | missingAttribute (label field : String)
  /-- An attribute has a value of the wrong shape. -/
  | invalidValue (label field : String) (expected : Expectation) (found : Value)
  /-- The element holds something that documents cannot carry. -/
  | unsupported (element : Id) (feature : Feature)
  /-- The model itself refuses. -/
  | model (error : ModelError)
deriving DecidableEq

namespace DocumentError

/-- The name of the cause, without its details. -/
def kindName : DocumentError → String
  | unreadable => "Json"
  | unexpectedRoot _ => "UnexpectedRoot"
  | unknownLabel .. => "UnknownLabel"
  | missingAttribute .. => "MissingAttribute"
  | invalidValue .. => "InvalidValue"
  | unsupported .. => "Unsupported"
  | model error => error.kindName

/-- The error in words. -/
def message : DocumentError → String
  | unreadable => "invalid JSON document"
  | unexpectedRoot label => s!"document root must be `definitions`, found `{label}`"
  | unknownLabel label parent => s!"unknown element `{label}` inside `{parent}`"
  | missingAttribute label field =>
    s!"`{label}` is missing required attribute `{field}`"
  | invalidValue label field expected found =>
    s!"attribute `{field}` of `{label}` must be a " ++ expected.describe ++ ", found a " ++
      found.typeName
  | unsupported element feature =>
    s!"`{element}` uses " ++ feature.describe ++ ", which documents cannot carry"
  | model error => error.message

end DocumentError

/-- A result of reading a document. -/
abbrev Reading (α : Type) : Type := Except DocumentError α

/-- A check of the model, made while reading a document. -/
def checked {α : Type} (result : Except ModelError α) : Reading α :=
  result.mapError .model

end BpmnModel
