import BpmnModel.Reference

/-!
# Expressions

Conditions, assignments and message paths: free text, or text in a machine-readable language. Models
`Expression` and `FormalExpression` with their `collect_references`.
-/

namespace BpmnModel

/-- An expression in a machine-readable language; without one, that of the scope applies. -/
structure FormalExpression where
  body : String
  language : Option String
  type : Option (RefTo .itemDefinition)
deriving DecidableEq

/-- A condition or assignment of an element. -/
inductive Expression where
  | informal (body : String)
  | formal (expression : FormalExpression)
deriving DecidableEq

/-- The type that a formal expression evaluates to, as a reference. -/
def FormalExpression.references (e : FormalExpression) : List Reference :=
  Ref.optionInField e.type "evaluatesToTypeRef"

/-- The references of a formal expression; free text has none. -/
def Expression.references : Expression → List Reference
  | informal _ => []
  | formal e => e.references

end BpmnModel
