import BpmnModel.Identity

/-!
# Artifacts

Associations, groups and text annotations: what is shown next to the flow without affecting it.
Models `Association`, `Group`, `TextAnnotation` and `Artifact` with its `kind` and
`collect_references`.
-/

namespace BpmnModel

/-- Connects an artifact to another artifact or to a flow element. -/
structure Association where
  identity : Identity
  source : Ref .associable
  target : Ref .associable
  direction : AssociationDirection
deriving DecidableEq

/-- Groups elements under a category value. -/
structure Group where
  identity : Identity
  categoryValueRef : Option (RefTo .categoryValue)
deriving DecidableEq

/-- Free text shown next to the model, with its media type. -/
structure TextNote where
  identity : Identity
  text : String
  format : String
deriving DecidableEq

/-- Information attached to a process, sub-process or collaboration. -/
inductive Artifact where
  | association (a : Association)
  | group (g : Group)
  | textNote (t : TextNote)
deriving DecidableEq

namespace Artifact

def identity : Artifact → Identity
  | association a => a.identity
  | group g => g.identity
  | textNote t => t.identity

def id (a : Artifact) : Id := a.identity.id

def kind : Artifact → Kind
  | association _ => .association
  | group _ => .group
  | textNote _ => .textNote

def references (a : Artifact) : List Reference :=
  a.identity.references ++
    match a with
    | association a => [a.source.inField "sourceRef", a.target.inField "targetRef"]
    | group g => Ref.optionInField g.categoryValueRef "categoryValueRef"
    | textNote _ => []

end Artifact

end BpmnModel
