import BpmnModel.Identity

/-!
# Shared definitions

Root elements that others refer to by name: item definitions, messages, errors, escalations,
resources with their parameters, categories with their values, and end points. Models the types of
these names (`ErrorDefinition` models `Error`) with their `collect_references`.
-/

namespace BpmnModel

/-- The type of data that messages, errors and data parameters carry. -/
structure ItemDefinition where
  identity : Identity
  itemKind : ItemKind
  isCollection : Bool
  /-- The name of the structure in the type language of the scope. -/
  structureRef : Option String
deriving DecidableEq

/-- A message that participants exchange. -/
structure Message where
  identity : Identity
  name : Option String
  itemRef : Option (RefTo .itemDefinition)
deriving DecidableEq

/-- A business error that events raise or catch. -/
structure ErrorDefinition where
  identity : Identity
  name : Option String
  errorCode : Option String
  structureRef : Option (RefTo .itemDefinition)
deriving DecidableEq

/-- A condition raised to a higher level of responsibility. -/
structure Escalation where
  identity : Identity
  name : Option String
  escalationCode : Option String
  structureRef : Option (RefTo .itemDefinition)
deriving DecidableEq

/-- A parameter by which a resource is queried. -/
structure ResourceParameter where
  identity : Identity
  name : String
  type : Option (RefTo .itemDefinition)
  isRequired : Bool
deriving DecidableEq

/-- Someone or something that can perform work. -/
structure Resource where
  identity : Identity
  name : String
  parameters : List ResourceParameter
deriving DecidableEq

/-- One value of a category. -/
structure CategoryValue where
  identity : Identity
  value : String
deriving DecidableEq

/-- A named set of values that classify flow elements. -/
structure Category where
  identity : Identity
  name : String
  values : List CategoryValue
deriving DecidableEq

/-- The address at which the services of a participant are reached. -/
structure EndPoint where
  identity : Identity
deriving DecidableEq

namespace ItemDefinition

def references (d : ItemDefinition) : List Reference :=
  d.identity.references

end ItemDefinition

namespace Message

def references (m : Message) : List Reference :=
  m.identity.references ++ Ref.optionInField m.itemRef "itemRef"

end Message

namespace ErrorDefinition

def references (e : ErrorDefinition) : List Reference :=
  e.identity.references ++ Ref.optionInField e.structureRef "structureRef"

end ErrorDefinition

namespace Escalation

def references (e : Escalation) : List Reference :=
  e.identity.references ++ Ref.optionInField e.structureRef "structureRef"

end Escalation

namespace ResourceParameter

def references (p : ResourceParameter) : List Reference :=
  p.identity.references ++ Ref.optionInField p.type "type"

end ResourceParameter

end BpmnModel
