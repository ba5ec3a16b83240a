/-!
# Element kinds and capabilities

* `Capability` — a structural role that an element can play.
* `Kind` — what an element is; `Kind.all` lists the kinds in their fixed order. Models
  `ElementKind`.
* `Kind.capabilities` — the roles each kind plays, in declared order. Models
  `ElementKind.capabilities`, and `Kind.has` models `ElementKind.has`.
-/

namespace BpmnModel

/-- A structural role of an element. One element may play several. -/
inductive Capability where
  | identifiable
  | rootElement
  | flowElement
  | flowNode
  | activity
  | event
  | container
  | interactionNode
  | callable
  | conversationNode
  | artifact
deriving DecidableEq, Repr, Inhabited

namespace Capability

/-- Every capability, in declaration order. -/
def all : List Capability :=
  [identifiable, rootElement, flowElement, flowNode, activity, event, container, interactionNode,
    callable, conversationNode, artifact]

/-- The name of the role, in one word. -/
def name : Capability → String
  | identifiable => "Identifiable"
  | rootElement => "RootElement"
  | flowElement => "FlowElement"
  | flowNode => "FlowNode"
  | activity => "Activity"
  | event => "Event"
  | container => "Container"
  | interactionNode => "InteractionNode"
  | callable => "Callable"
  | conversationNode => "ConversationNode"
  | artifact => "Artifact"

/-- The role with this name. -/
def find? (name : String) : Option Capability :=
  all.find? fun c => c.name = name

/-- The role in words. -/
def describe : Capability → String
  | identifiable => "identifiable element"
  | rootElement => "root element"
  | flowElement => "flow element"
  | flowNode => "flow node"
  | activity => "activity"
  | event => "event"
  | container => "flow elements container"
  | interactionNode => "interaction node"
  | callable => "callable element"
  | conversationNode => "conversation node"
  | artifact => "artifact"

/-- The indefinite article that goes before `describe`. -/
def article : Capability → String
  | identifiable | activity | event | interactionNode | artifact => "an"
  | rootElement | flowElement | flowNode | container | callable | conversationNode => "a"

instance : ToString Capability where
  toString := describe

end Capability

/-- What an element is. -/
inductive Kind where
  | process
  | collaboration
  | globalConversation
  | interface
  | operation
  | endPoint
  | message
  | itemDefinition
  | error
  | escalation
  | resource
  | resourceParameter
  | category
  | categoryValue
  | correlationProperty
  | correlationKey
  | participant
  | messageFlow
  | conversation
  | subConversation
  | callConversation
  | conversationLink
  | task
  | serviceTask
  | sendTask
  | receiveTask
  | businessRuleTask
  | scriptTask
  | userTask
  | manualTask
  | subProcess
  | callActivity
  | gateway
  | startEvent
  | intermediateCatchEvent
  | intermediateThrowEvent
  | endEvent
  | boundaryEvent
  | sequenceFlow
  | laneSet
  | lane
  | association
  | group
  | textNote
  | relationship
deriving DecidableEq, Repr, Inhabited

namespace Kind

/-- Every kind, in declaration order. -/
def all : List Kind :=
  [process, collaboration, globalConversation, interface, operation, endPoint, message,
    itemDefinition, error, escalation, resource, resourceParameter, category, categoryValue,
    correlationProperty, correlationKey, participant, messageFlow, conversation, subConversation,
    callConversation, conversationLink, task, serviceTask, sendTask, receiveTask, businessRuleTask,
    scriptTask, userTask, manualTask, subProcess, callActivity, gateway, startEvent,
    intermediateCatchEvent, intermediateThrowEvent, endEvent, boundaryEvent, sequenceFlow, laneSet,
    lane, association, group, textNote, relationship]

/-- The name of the kind in the notation. -/
def name : Kind → String
  | process => "Process"
  | collaboration => "Collaboration"
  | globalConversation => "GlobalConversation"
  | interface => "Interface"
  | operation => "Operation"
  | endPoint => "EndPoint"
  | message => "Message"
  | itemDefinition => "ItemDefinition"
  | error => "Error"
  | escalation => "Escalation"
  | resource => "Resource"
  | resourceParameter => "ResourceParameter"
  | category => "Category"
  | categoryValue => "CategoryValue"
  | correlationProperty => "CorrelationProperty"
  | correlationKey => "CorrelationKey"
  | participant => "Participant"
  | messageFlow => "MessageFlow"
  | conversation => "Conversation"
  | subConversation => "SubConversation"
  | callConversation => "CallConversation"
  | conversationLink => "ConversationLink"
  | task => "Task"
  | serviceTask => "ServiceTask"
  | sendTask => "SendTask"
  | receiveTask => "ReceiveTask"
  | businessRuleTask => "BusinessRuleTask"
  | scriptTask => "ScriptTask"
  | userTask => "UserTask"
  | manualTask => "ManualTask"
  | subProcess => "SubProcess"
  | callActivity => "CallActivity"
  | gateway => "Gateway"
  | startEvent => "StartEvent"
  | intermediateCatchEvent => "IntermediateCatchEvent"
  | intermediateThrowEvent => "IntermediateThrowEvent"
  | endEvent => "EndEvent"
  | boundaryEvent => "BoundaryEvent"
  | sequenceFlow => "SequenceFlow"
  | laneSet => "LaneSet"
  | lane => "Lane"
  | association => "Association"
  | group => "Group"
  | textNote => "TextAnnotation"
  | relationship => "Relationship"

/-- The kind with this name. -/
def find? (name : String) : Option Kind :=
  all.find? fun k => k.name = name

instance : ToString Kind where
  toString := name

/-- The roles that elements of this kind play, in declared order. -/
def capabilities : Kind → List Capability
  | process => [.identifiable, .rootElement, .container, .callable]
  | collaboration | globalConversation | interface | endPoint | message | itemDefinition | error
  | escalation | resource | category | correlationProperty => [.identifiable, .rootElement]
  | operation | resourceParameter | categoryValue | correlationKey | messageFlow
  | conversationLink | laneSet | lane | relationship => [.identifiable]
  | participant => [.identifiable, .interactionNode]
  | conversation | subConversation | callConversation => [.identifiable, .conversationNode]
  | task | serviceTask | sendTask | receiveTask | businessRuleTask | scriptTask | userTask
  | manualTask | callActivity =>
    [.identifiable, .flowElement, .flowNode, .activity, .interactionNode]
  | subProcess =>
    [.identifiable, .flowElement, .flowNode, .activity, .interactionNode, .container]
  | gateway => [.identifiable, .flowElement, .flowNode]
  | startEvent | intermediateCatchEvent | intermediateThrowEvent | endEvent | boundaryEvent =>
    [.identifiable, .flowElement, .flowNode, .event, .interactionNode]
  | sequenceFlow => [.identifiable, .flowElement]
  | association | group | textNote => [.identifiable, .artifact]

/-- Whether elements of this kind play the role. -/
def has (k : Kind) (c : Capability) : Bool :=
  k.capabilities.contains c

end Kind

end BpmnModel
