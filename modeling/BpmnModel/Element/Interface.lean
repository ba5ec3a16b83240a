import BpmnModel.Identity
import BpmnModel.Roster

/-!
# Interfaces and operations

* `Interface.of` — an interface offers at least one operation; the type keeps it. Models
  `Interface.new`.
* `Interface.push` — appending an operation. Models `push_operation`.
-/

namespace BpmnModel

/-- One request message in, at most one response message out. -/
structure Operation where
  identity : Identity
  name : String
  inMessageRef : RefTo .message
  outMessageRef : Option (RefTo .message)
  errorRefs : List (RefTo .error)
  implementationRef : Option String
deriving DecidableEq

namespace Operation

def id (o : Operation) : Id := o.identity.id

def references (o : Operation) : List Reference :=
  o.identity.references ++ [o.inMessageRef.inField "inMessageRef"] ++
    Ref.optionInField o.outMessageRef "outMessageRef" ++ Ref.listInField o.errorRefs "errorRef"

end Operation

/-- A service contract: a named list of operations. -/
structure Interface where
  identity : Identity
  name : String
  operations : Roster Operation Operation.id
  implementationRef : Option String
  operations_ne_nil : operations.items ≠ []
deriving DecidableEq

namespace Interface

/-- Builds an interface, which has to offer an operation. -/
def of (identity : Identity) (name : String) (operations : List Operation)
    (implementationRef : Option String) : Except ModelError Interface :=
  if h : operations = [] then
    .error (.multiplicity identity.id.text "operations" "must contain at least one operation")
  else
    .ok ⟨identity, name, .ofList operations, implementationRef, by simpa using h⟩

/-- Appends an operation. -/
def push (i : Interface) (operation : Operation) : Interface :=
  { i with
    operations := i.operations.push operation
    operations_ne_nil := by simp }

end Interface

end BpmnModel
