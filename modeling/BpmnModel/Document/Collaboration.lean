import BpmnModel.Document.Artifact
import BpmnModel.Element.Collaboration

/-!
# Collaborations in documents

Participants, message flows, conversation nodes at any depth, conversation links and artifacts.
Correlation keys and association mappings have no place in documents.

The readers model `collaboration`, `participant`, `message_flow`, `conversation_node` and
`conversation_link` of the import, the writers `collaboration` and `conversation_node` of the
export.
-/

namespace BpmnModel

namespace Multiplicity

def ofNode (n : Node) : Reading Multiplicity := do
  let minimum := (← n.integer? "minimum").getD 0
  let maximum ← n.integer? "maximum"
  n.finish ["minimum", "maximum"]
  n.noContent
  checked (Multiplicity.ofInts minimum maximum)

def toNode (m : Multiplicity) : Node :=
  ((Node.bare "participantMultiplicity").set "minimum" (.ofCount m.minimum)).set? "maximum"
    (m.maximum.map .ofCount)

end Multiplicity

namespace Participant

/-- The multiplicity among the children of a participant. Besides documentation there may be one
child. -/
def multiplicityOfNodes (n : Node) :
    List Node → Option Multiplicity → Reading (Option Multiplicity)
  | [], m => return m
  | child :: children, m => do
    if child.label = "participantMultiplicity" && m.isNone then
      multiplicityOfNodes n children (some (← Multiplicity.ofNode child))
    else throw (n.unknownChild child.label)

def ofNode (n : Node) : Reading Participant := do
  let id ← n.id
  let identity ← Identity.ofNode id n
  let name ← n.text? "name"
  let processRef ← n.ref? "processRef"
  let interfaceRefs ← n.refs "interfaceRefs"
  let endPointRefs ← n.refs "endPointRefs"
  n.finish ["id", "name", "processRef", "interfaceRefs", "endPointRefs"]
  let multiplicity ← multiplicityOfNodes n n.content none
  return ⟨identity, name, processRef, interfaceRefs, endPointRefs, multiplicity⟩

def toNode (p : Participant) : Except DocumentError Node := do
  let n ← p.identity.toNode "participant"
  let n := (n.setText? "name" p.name).setRef? "processRef" p.processRef
  let n := (n.setRefs "interfaceRefs" p.interfaceRefs).setRefs "endPointRefs" p.endPointRefs
  return n.pushAll (p.multiplicity.map Multiplicity.toNode).toList

end Participant

namespace MessageFlow

def ofNode (n : Node) : Reading MessageFlow := do
  let id ← n.id
  let name ← n.text? "name"
  let source ← n.ref "sourceRef"
  let target ← n.ref "targetRef"
  let messageRef ← n.ref? "messageRef"
  n.finish ["id", "name", "sourceRef", "targetRef", "messageRef"]
  n.noContent
  return ⟨← Identity.ofNode id n, name, source, target, messageRef⟩

def toNode (f : MessageFlow) : Except DocumentError Node := do
  let n ← f.identity.toNode "messageFlow"
  let n := (n.setText? "name" f.name).setRef "sourceRef" f.source
  return (n.setRef "targetRef" f.target).setRef? "messageRef" f.messageRef

end MessageFlow

namespace ConversationLink

def ofNode (n : Node) : Reading ConversationLink := do
  let id ← n.id
  let name ← n.text? "name"
  let source ← n.ref "sourceRef"
  let target ← n.ref "targetRef"
  n.finish ["id", "name", "sourceRef", "targetRef"]
  n.noContent
  return ⟨← Identity.ofNode id n, name, source, target⟩

def toNode (l : ConversationLink) : Except DocumentError Node := do
  let n ← l.identity.toNode "conversationLink"
  return ((n.setText? "name" l.name).setRef "sourceRef" l.source).setRef "targetRef" l.target

end ConversationLink

namespace ConversationNode

/-- Whether the label is that of a conversation node. -/
def isLabel (label : String) : Bool :=
  label = "conversation" || label = "subConversation" || label = "callConversation"

/-- The fields that all conversation nodes have. -/
def fields : List String := ["id", "participantRefs", "name", "messageFlowRefs"]

mutual

/-- Reads a node whose label is that of a conversation node. -/
def ofNode : Node → Reading ConversationNode
  | ⟨label, attributes, children⟩ => do
    let n : Node := ⟨label, attributes, children⟩
    let id ← n.id
    let participantRefs ← n.refs "participantRefs"
    let identity ← Identity.ofNode id n
    let name ← n.text? "name"
    let messageFlowRefs ← n.refs "messageFlowRefs"
    let build (sort : ConversationSort) : Reading ConversationNode :=
      checked (ConversationNode.of identity name participantRefs messageFlowRefs [] sort)
    match label with
    | "subConversation" =>
      let nodes ← allOfNodes label children
      n.finish fields
      build (.subConversation nodes)
    | "callConversation" =>
      n.noContent
      let called ← n.ref? "calledCollaborationRef"
      n.finish (fields ++ ["calledCollaborationRef"])
      build (.callConversation called [])
    | _ =>
      n.noContent
      n.finish fields
      build .conversation

/-- Reads the children of a node with the label `parent`. Besides documentation they are all
conversation nodes. -/
def allOfNodes (parent : String) : List Node → Reading (List ConversationNode)
  | [] => return []
  | n :: ns => do
    if n.isDocumentation then allOfNodes parent ns
    else if isLabel n.label then
      let c ← ofNode n
      return c :: (← allOfNodes parent ns)
    else throw (.unknownLabel n.label parent)

end

/-- A node with this label and the fields of a conversation node. -/
def baseToNode (label : String) (c : ConversationNode) : Except DocumentError Node := do
  if !c.base.correlationKeys.isEmpty then throw (.unsupported c.id .correlationKeys)
  let n ← c.identity.toNode label
  let n := (n.setText? "name" c.base.name).setRefs "participantRefs" c.base.participantRefs
  return n.setRefs "messageFlowRefs" c.messageFlowRefs

mutual

def toNode : ConversationNode → Except DocumentError Node
  | conversation b fs => baseToNode "conversation" (conversation b fs)
  | subConversation b fs ns => do
    let n ← baseToNode "subConversation" (subConversation b fs ns)
    return n.pushAll (← allToNodes ns)
  | callConversation b called associations => do
    let n ← baseToNode "callConversation" (callConversation b called associations)
    if !associations.isEmpty then throw (.unsupported b.identity.id .associationMappings)
    return n.setRef? "calledCollaborationRef" called

def allToNodes : List ConversationNode → Except DocumentError (List Node)
  | [] => return []
  | c :: cs => do
    let n ← toNode c
    return n :: (← allToNodes cs)

end

end ConversationNode

namespace Collaboration

/-- Adds what one child of a collaboration describes. -/
def addChild (n : Node) (c : Collaboration) (child : Node) : Reading Collaboration :=
  match Artifact.reader? child.label with
  | some read => do
    let a ← read child
    return { c with artifacts := c.artifacts ++ [a] }
  | none =>
    if ConversationNode.isLabel child.label then
      c.pushConversation <$> ConversationNode.ofNode child
    else
      match child.label with
      | "participant" => c.pushParticipant <$> Participant.ofNode child
      | "messageFlow" => c.pushMessageFlow <$> MessageFlow.ofNode child
      | "conversationLink" => c.pushLink <$> ConversationLink.ofNode child
      | _ => throw (n.unknownChild child.label)

/-- Reads a collaboration, or a global conversation if `isGlobal` is set. -/
def ofNode (isGlobal : Bool) (n : Node) : Reading Collaboration := do
  let id ← n.id
  let identity ← Identity.ofNode id n
  let name ← n.text? "name"
  let isClosed ← n.flag "isClosed" false
  n.finish ["id", "name", "isClosed"]
  n.content.foldlM (addChild n) { Collaboration.bare id isGlobal with identity, name, isClosed }

def toNode (c : Collaboration) : Except DocumentError Node := do
  if !c.correlationKeys.isEmpty then throw (.unsupported c.identity.id .correlationKeys)
  if !c.participantAssociations.isEmpty || !c.messageFlowAssociations.isEmpty ||
      !c.conversationAssociations.isEmpty then
    throw (.unsupported c.identity.id .associationMappings)
  let n ← c.identity.toNode (if c.isGlobal then "globalConversation" else "collaboration")
  let n := (n.setText? "name" c.name).setFlag "isClosed" c.isClosed false
  let participants ← c.participants.items.mapM Participant.toNode
  let messageFlows ← c.messageFlows.items.mapM MessageFlow.toNode
  let conversations ← ConversationNode.allToNodes c.conversations.items
  let links ← c.links.items.mapM ConversationLink.toNode
  let artifacts ← c.artifacts.mapM Artifact.toNode
  return n.pushAll (participants ++ messageFlows ++ conversations ++ links ++ artifacts)

end Collaboration

end BpmnModel
