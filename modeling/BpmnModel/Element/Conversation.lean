import BpmnModel.Element.Correlation

/-!
# Conversations

* `ConversationNode` — a conversation, one with nested nodes, or a call of a collaboration. A call
  has no message flows of its own and each node has at least two participants; `ConversationNode.of`
  is the check. It models `ConversationNode.new`.
* `ConversationLink` and `ConversationAssociation` — what joins nodes to participants, and inner
  nodes to outer ones. `ParticipantAssociation` does it for participants.
-/

namespace BpmnModel

/-- Maps a participant of a called collaboration onto one outside. -/
structure ParticipantAssociation where
  inner : RefTo .participant
  outer : RefTo .participant
deriving DecidableEq

namespace ParticipantAssociation

def references (a : ParticipantAssociation) : List Reference :=
  [a.inner.inField "innerParticipantRef", a.outer.inField "outerParticipantRef"]

end ParticipantAssociation

/-- What all conversation nodes carry. -/
structure ConversationBase where
  identity : Identity
  name : Option String
  participantRefs : List (RefTo .participant)
  correlationKeys : List CorrelationKey
  two_le_participants : 2 ≤ participantRefs.length
deriving DecidableEq

/-- A node of a conversation diagram. -/
inductive ConversationNode where
  | conversation (base : ConversationBase) (messageFlowRefs : List (RefTo .messageFlow))
  | subConversation (base : ConversationBase) (messageFlowRefs : List (RefTo .messageFlow))
      (nodes : List ConversationNode)
  | callConversation (base : ConversationBase) (called : Option (Ref .anyCollaboration))
      (associations : List ParticipantAssociation)

/-- What sort of conversation node to build. -/
inductive ConversationSort where
  | conversation
  | subConversation (nodes : List ConversationNode)
  | callConversation (called : Option (Ref .anyCollaboration))
      (associations : List ParticipantAssociation)

namespace ConversationNode

/-- Builds a node: first the participants are counted, then a call must not list message flows. -/
def of (identity : Identity) (name : Option String) (participantRefs : List (RefTo .participant))
    (messageFlowRefs : List (RefTo .messageFlow)) (correlationKeys : List CorrelationKey)
    (sort : ConversationSort) : Except ModelError ConversationNode :=
  if h : 2 ≤ participantRefs.length then
    let base : ConversationBase := ⟨identity, name, participantRefs, correlationKeys, h⟩
    match sort with
    | .conversation => .ok (conversation base messageFlowRefs)
    | .subConversation nodes => .ok (subConversation base messageFlowRefs nodes)
    | .callConversation called associations =>
      if messageFlowRefs = [] then .ok (callConversation base called associations)
      else
        .error (.configuration identity.id.text
          "messageFlowRefs does not apply to a call conversation")
  else
    .error (.multiplicity identity.id.text "participantRefs"
      s!"must name at least 2 participants, got {participantRefs.length}")

def base : ConversationNode → ConversationBase
  | conversation b _ | subConversation b .. | callConversation b .. => b

def identity (n : ConversationNode) : Identity := n.base.identity

def id (n : ConversationNode) : Id := n.identity.id

def kind : ConversationNode → Kind
  | conversation .. => .conversation
  | subConversation .. => .subConversation
  | callConversation .. => .callConversation

/-- The message flows that the node groups. -/
def messageFlowRefs : ConversationNode → List (RefTo .messageFlow)
  | conversation _ fs | subConversation _ fs _ => fs
  | callConversation .. => []

/-- The nodes nested in the node. -/
def nodes : ConversationNode → List ConversationNode
  | subConversation _ _ ns => ns
  | conversation .. | callConversation .. => []

def references (n : ConversationNode) : List Reference :=
  n.identity.references ++ Ref.listInField n.base.participantRefs "participantRefs" ++
    Ref.listInField n.messageFlowRefs "messageFlowRefs" ++
    match n with
    | conversation .. | subConversation .. => []
    | callConversation _ called associations =>
      Ref.optionInField called "calledCollaborationRef" ++
        associations.flatMap ParticipantAssociation.references

mutual

/-- Equality of conversation nodes. -/
def same : ConversationNode → ConversationNode → Bool
  | conversation b fs, conversation c gs => b == c && fs == gs
  | subConversation b fs ns, subConversation c gs ms => b == c && fs == gs && allSame ns ms
  | callConversation b d as, callConversation c e bs => b == c && d == e && as == bs
  | _, _ => false

/-- Equality of lists of conversation nodes, in order. -/
def allSame : List ConversationNode → List ConversationNode → Bool
  | [], [] => true
  | n :: ns, m :: ms => same n m && allSame ns ms
  | _, _ => false

end

end ConversationNode

/-- Joins a conversation node to a participant or another interaction node. -/
structure ConversationLink where
  identity : Identity
  name : Option String
  source : Ref .conversationEnd
  target : Ref .conversationEnd
deriving DecidableEq

namespace ConversationLink

def id (l : ConversationLink) : Id := l.identity.id

def references (l : ConversationLink) : List Reference :=
  l.identity.references ++ [l.source.inField "sourceRef", l.target.inField "targetRef"]

end ConversationLink

/-- Maps conversation nodes of a called collaboration onto nodes outside. -/
structure ConversationAssociation where
  inner : Option (Ref .anyConversation)
  outer : List (Ref .anyConversation)
deriving DecidableEq

namespace ConversationAssociation

def references (a : ConversationAssociation) : List Reference :=
  Ref.optionInField a.inner "innerConversationNodeRef" ++
    Ref.listInField a.outer "outerConversationNodeRef"

end ConversationAssociation

end BpmnModel
