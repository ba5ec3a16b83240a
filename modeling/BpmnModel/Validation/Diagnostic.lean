import BpmnModel.ModelError
import BpmnModel.Validation.Rule

/-!
# Diagnostics

* `Code` — what sort of problem a diagnostic is about; `Code.ofError` classifies errors of the
  model. Models `ErrorCode` and its `for_model_error`.
* `Diagnostic` — a problem that a rule found, with labels on the elements it concerns. Models
  `Diagnostic`, `Severity` and `Label`.
* `Diagnostic.text` — its wording in one line.
-/

namespace BpmnModel

/-- The sorts of problem: of a single element, of a reference, or of the structure of a scope. -/
inductive Code where
  | configuration
  | multiplicity
  | mutualExclusion
  | vocabulary
  | duplicateId
  | importType
  | danglingReference
  | capabilityMismatch
  | gatewayDegree
  | linkEndpoints
  | globalConversation
  | edgeMismatch
  | containment
  | deferredFlow
  | executablePublic
  | defaultFlow
  | mixedGateway
deriving DecidableEq, Repr

namespace Code

/-- The code as it is shown. -/
def text : Code → String
  | configuration => "E100"
  | multiplicity => "E101"
  | mutualExclusion => "E102"
  | vocabulary => "E103"
  | duplicateId => "E104"
  | importType => "E105"
  | danglingReference => "E200"
  | capabilityMismatch => "E201"
  | gatewayDegree => "E300"
  | linkEndpoints => "E301"
  | globalConversation => "E302"
  | edgeMismatch => "E303"
  | containment => "E304"
  | deferredFlow => "E305"
  | executablePublic => "E306"
  | defaultFlow => "E307"
  | mixedGateway => "E308"

/-- The sort of problem in words. -/
def describe : Code → String
  | configuration => "invalid configuration"
  | multiplicity => "multiplicity violated"
  | mutualExclusion => "mutually exclusive fields"
  | vocabulary => "invalid vocabulary value"
  | duplicateId => "duplicate identifier"
  | importType => "unknown import type"
  | danglingReference => "dangling reference"
  | capabilityMismatch => "capability mismatch"
  | gatewayDegree => "gateway degree constraint"
  | linkEndpoints => "invalid conversation link endpoints"
  | globalConversation => "conversation inside global conversation"
  | edgeMismatch => "flow node edge mismatch"
  | containment => "sequence flow crosses containers"
  | deferredFlow => "deferred flow in executable process"
  | executablePublic => "executable public process"
  | defaultFlow => "misplaced default flow"
  | mixedGateway => "underconnected mixed gateway"

/-- The codes in the order of their texts. -/
def all : List Code :=
  [configuration, multiplicity, mutualExclusion, vocabulary, duplicateId, importType,
    danglingReference, capabilityMismatch, gatewayDegree, linkEndpoints, globalConversation,
    edgeMismatch, containment, deferredFlow, executablePublic, defaultFlow, mixedGateway]

/-- The code that is shown as this text. -/
def find? (text : String) : Option Code :=
  all.find? (·.text = text)

/-- The sort of problem that an error of the model is. Elements that do not fit together have no
code of their own. -/
def ofError : ModelError → Code
  | .configuration .. | .structural .. => configuration
  | .multiplicity .. => multiplicity
  | .mutualExclusion .. => mutualExclusion
  | .enumValue .. => vocabulary
  | .duplicateId .. => duplicateId
  | .unknownImportType .. => importType
  | .danglingReference .. => danglingReference
  | .capabilityMismatch .. => capabilityMismatch
  | .degreeConstraint .. => gatewayDegree

end Code

/-- Whether a model with the problem is invalid or only suspicious. -/
inductive Severity where
  | error
  | warning
deriving DecidableEq, Repr

/-- The severity in words. -/
def Severity.name : Severity → String
  | error => "error"
  | warning => "warning"

/-- A remark on an element that a diagnostic concerns. The primary ones are on what breaks the
rule. -/
structure Label where
  element : Id
  message : String
  isPrimary : Bool
deriving DecidableEq, Repr

/-- A problem that a rule found. -/
structure Diagnostic where
  severity : Severity
  code : Option Code
  rule : Rule
  element : Id
  error : ModelError
  labels : List Label
  help : Option String
deriving DecidableEq, Repr

namespace Diagnostic

/-- What the diagnostic says. -/
def message (d : Diagnostic) : String := d.error.message

/-- The diagnostic in one line. -/
def text (d : Diagnostic) : String :=
  let code :=
    match d.code with
    | some code => "[" ++ code.text ++ "]"
    | none => ""
  d.severity.name ++ code ++ ": " ++ d.message

end Diagnostic

end BpmnModel
