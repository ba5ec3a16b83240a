import BpmnModel.ModelError

/-!
# Identity, documentation and extension values

* `Documentation`, `Extension` — model `Documentation`, and `Extension` with its
  `ExtensionDefinition`.
* `Identity` — what every element carries besides its own fields. Models `Identity` and its
  `collect_references`.
* `ExtensionAttribute.assign` — the only way to a value for a declared attribute: the payload has to
  be a reference exactly when the attribute is declared as one. Models the `new` of
  `ExtensionAttributeValue`.
-/

namespace BpmnModel

/-- Text that documents an element, with its media type. -/
structure Documentation where
  text : String
  format : String
deriving DecidableEq

namespace Documentation

/-- The media type of documentation that names none. -/
def plainText : String := "text/plain"

end Documentation

/-- An attribute that an extension adds to elements. -/
structure ExtensionAttribute where
  name : String
  typeName : String
  isReference : Bool
deriving DecidableEq

/-- A named group of extension attributes, declared for a whole scope. -/
structure Extension where
  name : String
  attributes : List ExtensionAttribute
  mustUnderstand : Bool
deriving DecidableEq

/-- The first attribute of the extension with this name. -/
def Extension.attribute? (e : Extension) (name : String) : Option ExtensionAttribute :=
  e.attributes.find? (·.name == name)

/-- What an extension attribute holds on one element. -/
inductive Payload where
  | value (text : String)
  | reference (target : Ref .anyElement)
deriving DecidableEq

/-- Whether the payload points at another element. -/
def Payload.isReference : Payload → Bool
  | value _ => false
  | reference _ => true

/-- The value of one extension attribute on one element. -/
structure ExtensionValue where
  name : String
  payload : Payload
deriving DecidableEq

namespace ExtensionAttribute

/-- What values of the attribute have to be, in words. -/
def expectation (a : ExtensionAttribute) : String :=
  if a.isReference then "a valueRef" else "a contained value"

/-- Gives the attribute a value of the declared sort. -/
def assign (a : ExtensionAttribute) (payload : Payload) : Except ModelError ExtensionValue :=
  if payload.isReference = a.isReference then
    .ok ⟨a.name, payload⟩
  else
    .error (.configuration a.name s!"extension attribute expects {a.expectation}")

end ExtensionAttribute

/-- Identifier, documentation and extension values of an element. -/
structure Identity where
  id : Id
  documentation : List Documentation
  extensionValues : List ExtensionValue
deriving DecidableEq

namespace Identity

/-- An identity without documentation or extension values. -/
def bare (id : Id) : Identity :=
  ⟨id, [], []⟩

/-- The elements that extension values point at. -/
def references (identity : Identity) : List Reference :=
  identity.extensionValues.filterMap fun v =>
    match v.payload with
    | .value _ => none
    | .reference target => some (target.inField "extensionValues")

end Identity

end BpmnModel
