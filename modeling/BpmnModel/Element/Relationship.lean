import BpmnModel.Identity

/-!
# Relationships

Links between arbitrary elements, kept beside the root elements of a scope. `Relationship.of` models
`Relationship.new`.
-/

namespace BpmnModel

/-- A link of a named type from some elements to others; neither side is empty. -/
structure Relationship where
  identity : Identity
  type : String
  direction : RelationshipDirection
  sources : List (Ref .anyElement)
  targets : List (Ref .anyElement)
  sources_ne_nil : sources ≠ []
  targets_ne_nil : targets ≠ []
deriving DecidableEq

namespace Relationship

/-- Builds a relationship; the sources are looked at first. -/
def of (identity : Identity) (type : String) (direction : RelationshipDirection)
    (sources targets : List (Ref .anyElement)) : Except ModelError Relationship :=
  if hs : sources = [] then
    .error (.multiplicity identity.id.text "sources" "must name at least one element")
  else if ht : targets = [] then
    .error (.multiplicity identity.id.text "targets" "must name at least one element")
  else .ok ⟨identity, type, direction, sources, targets, hs, ht⟩

def id (r : Relationship) : Id := r.identity.id

def references (r : Relationship) : List Reference :=
  r.identity.references ++ Ref.listInField r.sources "source" ++ Ref.listInField r.targets "target"

end Relationship

end BpmnModel
