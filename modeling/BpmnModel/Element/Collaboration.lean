import BpmnModel.Element.Artifact
import BpmnModel.Element.Conversation
import BpmnModel.Quantity
import BpmnModel.Roster

/-!
# Collaborations

Participants and the message flows between them, with the conversations that group the flows. A
global conversation is the form meant for reuse; it is a collaboration with `isGlobal` set.

Models `Participant`, `MessageFlow`, `MessageFlowAssociation` and `Collaboration`.
`Collaboration.pushParticipant` to `Collaboration.pushLink` model `push_participant`,
`push_message_flow`, `push_conversation` and `push_conversation_link`.
-/

namespace BpmnModel

/-- One party of a collaboration. -/
structure Participant where
  identity : Identity
  name : Option String
  processRef : Option (RefTo .process)
  interfaceRefs : List (RefTo .interface)
  endPointRefs : List (RefTo .endPoint)
  multiplicity : Option Multiplicity
deriving DecidableEq

namespace Participant

def id (p : Participant) : Id := p.identity.id

def references (p : Participant) : List Reference :=
  p.identity.references ++ Ref.optionInField p.processRef "processRef" ++
    Ref.listInField p.interfaceRefs "interfaceRef" ++ Ref.listInField p.endPointRefs "endPointRef"

end Participant

/-- A message sent from one interaction node to another. -/
structure MessageFlow where
  identity : Identity
  name : Option String
  source : Ref .anyInteractionNode
  target : Ref .anyInteractionNode
  messageRef : Option (RefTo .message)
deriving DecidableEq

namespace MessageFlow

def id (f : MessageFlow) : Id := f.identity.id

def references (f : MessageFlow) : List Reference :=
  f.identity.references ++ [f.source.inField "sourceRef", f.target.inField "targetRef"] ++
    Ref.optionInField f.messageRef "messageRef"

end MessageFlow

/-- Maps a message flow onto one of a called collaboration. -/
structure MessageFlowAssociation where
  inner : RefTo .messageFlow
  outer : RefTo .messageFlow
deriving DecidableEq

namespace MessageFlowAssociation

def references (a : MessageFlowAssociation) : List Reference :=
  [a.inner.inField "innerMessageFlowRef", a.outer.inField "outerMessageFlowRef"]

end MessageFlowAssociation

/-- Participants, the messages between them and the conversations that group these. -/
structure Collaboration where
  identity : Identity
  isGlobal : Bool
  name : Option String
  isClosed : Bool
  participants : Roster Participant Participant.id
  messageFlows : Roster MessageFlow MessageFlow.id
  conversations : Roster ConversationNode ConversationNode.id
  links : Roster ConversationLink ConversationLink.id
  artifacts : List Artifact
  correlationKeys : List CorrelationKey
  participantAssociations : List ParticipantAssociation
  messageFlowAssociations : List MessageFlowAssociation
  conversationAssociations : List ConversationAssociation

namespace Collaboration

/-- A collaboration with nothing but an identifier. -/
def bare (id : Id) (isGlobal : Bool) : Collaboration where
  identity := .bare id
  isGlobal := isGlobal
  name := none
  isClosed := false
  participants := .empty
  messageFlows := .empty
  conversations := .empty
  links := .empty
  artifacts := []
  correlationKeys := []
  participantAssociations := []
  messageFlowAssociations := []
  conversationAssociations := []

def kind (c : Collaboration) : Kind :=
  if c.isGlobal then .globalConversation else .collaboration

/-- Appends a participant. -/
def pushParticipant (c : Collaboration) (p : Participant) : Collaboration :=
  { c with participants := c.participants.push p }

/-- Appends a message flow. -/
def pushMessageFlow (c : Collaboration) (f : MessageFlow) : Collaboration :=
  { c with messageFlows := c.messageFlows.push f }

/-- Appends a conversation node. -/
def pushConversation (c : Collaboration) (n : ConversationNode) : Collaboration :=
  { c with conversations := c.conversations.push n }

/-- Appends a conversation link. -/
def pushLink (c : Collaboration) (l : ConversationLink) : Collaboration :=
  { c with links := c.links.push l }

/-- The references of the collaboration itself, without those of what it owns. -/
def references (c : Collaboration) : List Reference :=
  c.identity.references ++ c.participantAssociations.flatMap ParticipantAssociation.references ++
    c.messageFlowAssociations.flatMap MessageFlowAssociation.references ++
    c.conversationAssociations.flatMap ConversationAssociation.references

/-- Equality of collaborations. The directories follow from the lists and are not compared. -/
def same (c d : Collaboration) : Bool :=
  c.identity == d.identity && c.isGlobal == d.isGlobal && c.name == d.name &&
    c.isClosed == d.isClosed && c.participants.items == d.participants.items &&
    c.messageFlows.items == d.messageFlows.items &&
    ConversationNode.allSame c.conversations.items d.conversations.items &&
    c.links.items == d.links.items && c.artifacts == d.artifacts &&
    c.correlationKeys == d.correlationKeys &&
    c.participantAssociations == d.participantAssociations &&
    c.messageFlowAssociations == d.messageFlowAssociations &&
    c.conversationAssociations == d.conversationAssociations

end Collaboration

end BpmnModel
