import BpmnModel.Reference
import BpmnModel.Vocabulary

/-!
# Errors of the model

* `ModelError` — why an element or an edit of a scope was refused, or what a rule found. Models
  `ModelError` with `kind_name`.
* `ModelError.message` — the wording of each, in one place.
* `Vocabulary.parse` — reading a spelling, with the error that an unknown one gives. Models the
  `from_str` that `vocabulary` declares for each enumeration.
-/

namespace BpmnModel

/-- Why something was refused. -/
inductive ModelError where
  /-- An element has an option it does not know, or a malformed one. -/
  | configuration (element message : String)
  /-- A quantity or the length of a list is out of range. -/
  | multiplicity (element field message : String)
  /-- Two fields are set that exclude each other. -/
  | mutualExclusion (element first second : String)
  /-- A spelling is outside its vocabulary. -/
  | enumValue (vocabulary value : String) (expected : List String)
  /-- The identifier is taken. -/
  | duplicateId (id : Id)
  /-- No element carries the identifier. -/
  | danglingReference (id : Id) (requires : Requirement)
  /-- The target is not what the reference asks for. -/
  | capabilityMismatch (id : Id) (found : Kind) (requires : Requirement)
  /-- A gateway has more flows on one side than its direction allows. -/
  | degreeConstraint (gateway : Id) (direction : GatewayDirection) (incoming outgoing : Nat)
  /-- An import names an unknown type. -/
  | unknownImportType (value : String)
  /-- Elements do not fit together. -/
  | structural (element : Id) (message : String)
deriving DecidableEq, Repr

namespace ModelError

/-- The name of the cause, without its details. -/
def kindName : ModelError → String
  | configuration .. => "ConfigurationError"
  | multiplicity .. => "MultiplicityError"
  | mutualExclusion .. => "MutualExclusionError"
  | enumValue .. => "EnumValueError"
  | duplicateId .. => "DuplicateIdError"
  | danglingReference .. => "DanglingReferenceError"
  | capabilityMismatch .. => "CapabilityMismatchError"
  | degreeConstraint .. => "DegreeConstraintError"
  | unknownImportType .. => "UnknownImportTypeError"
  | structural .. => "StructuralConstraintError"

/-- The error in words. -/
def message : ModelError → String
  | configuration element message => s!"invalid configuration for `{element}`: {message}"
  | multiplicity element field message => s!"`{element}`: {field} {message}"
  | mutualExclusion element first second => s!"`{element}` sets both `{first}` and `{second}`"
  | enumValue vocabulary value expected =>
    s!"`{value}` is not a valid {vocabulary} (expected one of: " ++ ", ".intercalate expected ++ ")"
  | duplicateId id => s!"identifier `{id}` is already defined in this scope"
  | danglingReference id requires => s!"reference to `{id}` does not resolve (expected {requires})"
  | capabilityMismatch id found requires =>
    s!"`{id}` is of kind {found} but the reference requires {requires}"
  | degreeConstraint gateway direction incoming outgoing =>
    Vocabulary.spell direction ++
      s!" gateway `{gateway}` has {incoming} incoming and {outgoing} outgoing sequence flows"
  | unknownImportType value =>
    s!"unknown import type `{value}` (expected one of: xml10, wsdl20, bpmn20)"
  | structural element message => s!"`{element}`: {message}"

instance : ToString ModelError where
  toString := message

end ModelError

/-- Reads a spelling of the vocabulary, or says which ones there are. -/
def Vocabulary.parse {α : Type} [Vocabulary α] (text : String) : Except ModelError α :=
  match Vocabulary.find? text with
  | some v => .ok v
  | none => .error (.enumValue (Vocabulary.title α) text (Vocabulary.names α))

end BpmnModel
