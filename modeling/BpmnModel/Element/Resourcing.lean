import BpmnModel.Expression
import BpmnModel.Identity

/-!
# Resource roles

Who performs an activity or process. A role names a resource or describes one by an expression,
never both: `ResourceRole.of` refuses the pair and `ResourceSelection` cannot hold it. Models
`ResourceRole.new`, `ResourceParameterBinding` and `ResourceAssignmentExpression`.
-/

namespace BpmnModel

/-- Gives a parameter of a resource query its value. -/
structure ParameterBinding where
  parameterRef : RefTo .resourceParameter
  expression : Expression
deriving DecidableEq

namespace ParameterBinding

def references (b : ParameterBinding) : List Reference :=
  b.parameterRef.inField "parameterRef" :: b.expression.references

end ParameterBinding

/-- How the resource of a role is found. -/
inductive ResourceSelection where
  | unspecified
  | named (resource : RefTo .resource)
  | assigned (expression : Expression)
deriving DecidableEq

namespace ResourceSelection

/-- The resource that is named, if one is. -/
def resource? : ResourceSelection → Option (RefTo .resource)
  | named resource => some resource
  | _ => none

/-- The expression that describes the resource, if one does. -/
def assignment? : ResourceSelection → Option Expression
  | assigned expression => some expression
  | _ => none

end ResourceSelection

/-- The part a resource plays. -/
structure ResourceRole where
  kind : ResourceRoleKind
  name : Option String
  selection : ResourceSelection
  bindings : List ParameterBinding
deriving DecidableEq

namespace ResourceRole

/-- Builds a role, which has at most one of a named resource and an assignment expression. -/
def of (kind : ResourceRoleKind) (name : Option String) (resource : Option (RefTo .resource))
    (bindings : List ParameterBinding) (assignment : Option Expression) :
    Except ModelError ResourceRole :=
  match resource, assignment with
  | some _, some _ =>
    .error (.mutualExclusion (name.getD (Vocabulary.spell kind)) "resourceRef"
      "resourceAssignmentExpression")
  | some r, none => .ok ⟨kind, name, .named r, bindings⟩
  | none, some e => .ok ⟨kind, name, .assigned e, bindings⟩
  | none, none => .ok ⟨kind, name, .unspecified, bindings⟩

def references (r : ResourceRole) : List Reference :=
  Ref.optionInField r.selection.resource? "resourceRef" ++
    r.bindings.flatMap ParameterBinding.references ++
    (r.selection.assignment?.map Expression.references).getD []

end ResourceRole

end BpmnModel
