import BpmnModel.Expression
import BpmnModel.Identity

/-!
# Message correlation

Correlation properties, the keys made of them, and the subscriptions by which a process matches
messages against its own data. `CorrelationProperty.of` asks for at least one retrieval expression.

Models `CorrelationKey`, `CorrelationPropertyRetrievalExpression`, `CorrelationProperty.new`,
`CorrelationPropertyBinding` and `CorrelationSubscription`.
-/

namespace BpmnModel

/-- A set of correlation properties that identify a conversation together. -/
structure CorrelationKey where
  identity : Identity
  name : Option String
  propertyRefs : List (RefTo .correlationProperty)
deriving DecidableEq

namespace CorrelationKey

def references (k : CorrelationKey) : List Reference :=
  k.identity.references ++ Ref.listInField k.propertyRefs "correlationPropertyRef"

end CorrelationKey

/-- How a correlation property is read from one type of message. -/
structure RetrievalExpression where
  messagePath : FormalExpression
  messageRef : RefTo .message
deriving DecidableEq

namespace RetrievalExpression

def references (e : RetrievalExpression) : List Reference :=
  e.messageRef.inField "messageRef" :: e.messagePath.references

end RetrievalExpression

/-- A piece of data that identifies a conversation. -/
structure CorrelationProperty where
  identity : Identity
  name : Option String
  type : Option (RefTo .itemDefinition)
  retrievals : List RetrievalExpression
  retrievals_ne_nil : retrievals ≠ []
deriving DecidableEq

namespace CorrelationProperty

/-- Builds a correlation property, which some message has to carry. -/
def of (identity : Identity) (name : Option String) (type : Option (RefTo .itemDefinition))
    (retrievals : List RetrievalExpression) : Except ModelError CorrelationProperty :=
  if h : retrievals = [] then
    .error (.multiplicity identity.id.text "correlationPropertyRetrievalExpression"
      "must contain at least one expression")
  else .ok ⟨identity, name, type, retrievals, h⟩

def references (p : CorrelationProperty) : List Reference :=
  p.identity.references ++ Ref.optionInField p.type "type" ++
    p.retrievals.flatMap RetrievalExpression.references

end CorrelationProperty

/-- How a correlation property is read from the data of a process. -/
structure CorrelationBinding where
  dataPath : FormalExpression
  propertyRef : RefTo .correlationProperty
deriving DecidableEq

namespace CorrelationBinding

def references (b : CorrelationBinding) : List Reference :=
  b.propertyRef.inField "correlationPropertyRef" :: b.dataPath.references

end CorrelationBinding

/-- Subscribes a process to the messages that match a key. -/
structure CorrelationSubscription where
  keyRef : RefTo .correlationKey
  bindings : List CorrelationBinding
deriving DecidableEq

namespace CorrelationSubscription

def references (s : CorrelationSubscription) : List Reference :=
  s.keyRef.inField "correlationKeyRef" :: s.bindings.flatMap CorrelationBinding.references

end CorrelationSubscription

end BpmnModel
