import BpmnModel.Element.Resourcing
import BpmnModel.Quantity

/-!
# Flow nodes and sequence flows

The parts a process is drawn with, apart from what a sub-process contains:

* `Edges` — the sequence flows listed at a node; `Edges.attach` and `Edges.detach` keep the lists.
  Models `FlowNodeRole` with `attach_incoming`, `attach_outgoing` and `detach`.
* `SequenceFlow`, `Gateway`, `Event` and `Activity`, the last without its kind of work. Model the
  types of these names; `Event.of` and `Activity.withQuantities` are the checks of `Event.new` and
  `Activity.new`.
* `TaskWork` — the kinds of task. Models `TaskKind`.
-/

namespace BpmnModel

/-- What every flow element carries. -/
structure FlowBase where
  identity : Identity
  name : Option String
  categoryValueRefs : List (RefTo .categoryValue)
deriving DecidableEq

namespace FlowBase

def id (b : FlowBase) : Id := b.identity.id

def references (b : FlowBase) : List Reference :=
  b.identity.references ++ Ref.listInField b.categoryValueRefs "categoryValueRef"

end FlowBase

/-- A directed edge between two flow nodes. -/
structure SequenceFlow where
  base : FlowBase
  source : Ref .anyFlowNode
  target : Ref .anyFlowNode
  condition : Option Expression
  isImmediate : Option Bool
deriving DecidableEq

namespace SequenceFlow

def id (f : SequenceFlow) : Id := f.base.id

def references (f : SequenceFlow) : List Reference :=
  f.base.references ++ [f.source.inField "sourceRef", f.target.inField "targetRef"] ++
    (f.condition.map Expression.references).getD []

end SequenceFlow

/-- The sequence flows listed at a flow node. -/
structure Edges where
  incoming : List (RefTo .sequenceFlow)
  outgoing : List (RefTo .sequenceFlow)
deriving DecidableEq

namespace Edges

/-- No flow listed. -/
def none : Edges := ⟨[], []⟩

def references (e : Edges) : List Reference :=
  Ref.listInField e.incoming "incoming" ++ Ref.listInField e.outgoing "outgoing"

/-- Lists a flow as arriving, unless it is listed. -/
def attachIncoming (e : Edges) (flow : RefTo .sequenceFlow) : Edges :=
  if flow ∈ e.incoming then e else { e with incoming := e.incoming ++ [flow] }

/-- Lists a flow as leaving, unless it is listed. -/
def attachOutgoing (e : Edges) (flow : RefTo .sequenceFlow) : Edges :=
  if flow ∈ e.outgoing then e else { e with outgoing := e.outgoing ++ [flow] }

/-- Lists a flow at the sides on which it touches `node`. -/
def attach (node : Id) (e : Edges) (flow : SequenceFlow) : Edges :=
  let e := if flow.source.id = node then e.attachOutgoing ⟨flow.id⟩ else e
  if flow.target.id = node then e.attachIncoming ⟨flow.id⟩ else e

/-- Strikes a flow from both sides. -/
def detach (e : Edges) (flow : Id) : Edges :=
  { incoming := e.incoming.filter (·.id ≠ flow)
    outgoing := e.outgoing.filter (·.id ≠ flow) }

end Edges

/-- A point where flows branch or merge. -/
structure Gateway where
  base : FlowBase
  edges : Edges
  type : GatewayType
  direction : GatewayDirection
  /-- The flow taken when no condition holds. -/
  defaultFlow : Option (RefTo .sequenceFlow)
deriving DecidableEq

namespace Gateway

def references (g : Gateway) : List Reference :=
  g.base.references ++ g.edges.references ++ Ref.optionInField g.defaultFlow "default"

end Gateway

/-- Where in the flow an event stands. -/
inductive EventPosition where
  | start (isInterrupting : Bool)
  | intermediateCatch
  | intermediateThrow
  | finish
  | boundary (attachedTo : Ref .anyActivity) (cancelActivity : Bool)
deriving DecidableEq

namespace EventPosition

def kind : EventPosition → Kind
  | start _ => .startEvent
  | intermediateCatch => .intermediateCatchEvent
  | intermediateThrow => .intermediateThrowEvent
  | finish => .endEvent
  | boundary .. => .boundaryEvent

def references : EventPosition → List Reference
  | boundary attachedTo _ => [attachedTo.inField "attachedToRef"]
  | _ => []

end EventPosition

/-- What triggers an event or results from it. -/
inductive EventDefinition where
  | message (message : Option (RefTo .message)) (operation : Option (RefTo .operation))
  | error (error : Option (RefTo .error))
  | escalation (escalation : Option (RefTo .escalation))
  | terminate
deriving DecidableEq

namespace EventDefinition

/-- The name of the definition in the notation. -/
def name : EventDefinition → String
  | message .. => "MessageEventDefinition"
  | error _ => "ErrorEventDefinition"
  | escalation _ => "EscalationEventDefinition"
  | terminate => "TerminateEventDefinition"

def references : EventDefinition → List Reference
  | message m o => Ref.optionInField m "messageRef" ++ Ref.optionInField o "operationRef"
  | error e => Ref.optionInField e "errorRef"
  | escalation e => Ref.optionInField e "escalationRef"
  | terminate => []

end EventDefinition

/-- Something that happens during a process. Only an end event may terminate it. -/
structure Event where
  base : FlowBase
  edges : Edges
  position : EventPosition
  definitions : List EventDefinition
  finish_of_terminate : .terminate ∈ definitions → position = .finish
deriving DecidableEq

namespace Event

/-- Builds an event, which terminates the process only if it ends it. -/
def of (base : FlowBase) (edges : Edges) (position : EventPosition)
    (definitions : List EventDefinition) : Except ModelError Event :=
  if h : .terminate ∈ definitions → position = .finish then
    .ok ⟨base, edges, position, definitions, h⟩
  else
    .error (.configuration base.id.text
      "a terminate event definition is only allowed on an end event")

def references (e : Event) : List Reference :=
  e.base.references ++ e.edges.references ++ e.position.references ++
    e.definitions.flatMap EventDefinition.references

end Event

/-- How a task is implemented. -/
inductive Implementation where
  | webService
  | unspecified
  /-- Any other technology, named by its address. -/
  | other (uri : String)
deriving DecidableEq

namespace Implementation

/-- The spelling in documents. -/
def text : Implementation → String
  | webService => "##WebService"
  | unspecified => "##unspecified"
  | other uri => uri

/-- Reads a spelling; every text that is not reserved names another technology. -/
def ofText (text : String) : Implementation :=
  if text = "##WebService" then webService
  else if text = "##unspecified" then unspecified
  else other text

end Implementation

/-- The kinds of task, with the fields of each. -/
inductive TaskWork where
  | plain
  | service (implementation : Implementation) (operation : Option (RefTo .operation))
  | send (implementation : Implementation) (message : Option (RefTo .message))
      (operation : Option (RefTo .operation))
  | receive (implementation : Implementation) (instantiate : Bool)
      (message : Option (RefTo .message)) (operation : Option (RefTo .operation))
  | businessRule (implementation : Implementation)
  | script (format : Option String) (text : Option String)
  | user (implementation : Implementation) (renderings : List String)
  | manual
deriving DecidableEq

namespace TaskWork

/-- A service task over a web service. -/
def webService : TaskWork := service .webService none

/-- A send task over a web service. -/
def webSend (message : Option (RefTo .message)) : TaskWork := send .webService message none

/-- A receive task over a web service. -/
def webReceive (message : Option (RefTo .message)) (instantiate : Bool) : TaskWork :=
  receive .webService instantiate message none

/-- A business rule task with no technology named. -/
def unspecifiedRule : TaskWork := businessRule .unspecified

/-- A user task with no technology named and nothing rendered. -/
def unspecifiedUser : TaskWork := user .unspecified []

def kind : TaskWork → Kind
  | plain => .task
  | service .. => .serviceTask
  | send .. => .sendTask
  | receive .. => .receiveTask
  | businessRule _ => .businessRuleTask
  | script .. => .scriptTask
  | user .. => .userTask
  | manual => .manualTask

def references : TaskWork → List Reference
  | service _ o => Ref.optionInField o "operationRef"
  | send _ m o | receive _ _ m o =>
    Ref.optionInField m "messageRef" ++ Ref.optionInField o "operationRef"
  | plain | businessRule _ | script .. | user .. | manual => []

end TaskWork

/-- How an activity repeats. -/
inductive Loop where
  | standard (testBefore : Bool) (maximum : Option UInt32) (condition : Option Expression)
  | multiInstance (isSequential : Bool) (cardinality : Option Expression)
      (completion : Option Expression)
deriving DecidableEq

namespace Loop

/-- The expressions of a loop, in order. -/
def expressions : Loop → List Expression
  | standard _ _ condition => condition.toList
  | multiInstance _ cardinality completion => cardinality.toList ++ completion.toList

def references (l : Loop) : List Reference :=
  l.expressions.flatMap Expression.references

end Loop

/-- A declared input or output of an activity. -/
structure DataParameter where
  name : String
  itemSubjectRef : Option (RefTo .itemDefinition)
  isCollection : Bool
deriving DecidableEq

/-- The data that an activity consumes and produces. -/
structure DataSpecification where
  inputs : List DataParameter
  outputs : List DataParameter
deriving DecidableEq

namespace DataSpecification

def references (d : DataSpecification) : List Reference :=
  (d.inputs ++ d.outputs).flatMap fun p => Ref.optionInField p.itemSubjectRef "itemSubjectRef"

end DataSpecification

/-- What all activities carry, whatever work they do. -/
structure Activity where
  base : FlowBase
  edges : Edges
  isForCompensation : Bool
  loop : Option Loop
  resources : List ResourceRole
  defaultFlow : Option (RefTo .sequenceFlow)
  data : Option DataSpecification
  boundaryEventRefs : List (RefTo .boundaryEvent)
  startQuantity : Quantity
  completionQuantity : Quantity
deriving DecidableEq

namespace Activity

/-- An activity with nothing but an identifier. -/
def bare (id : Id) : Activity where
  base := ⟨.bare id, none, []⟩
  edges := .none
  isForCompensation := false
  loop := none
  resources := []
  defaultFlow := none
  data := none
  boundaryEventRefs := []
  startQuantity := .one
  completionQuantity := .one

/-- Sets the quantities of tokens, each checked, the start quantity first. -/
def withQuantities (a : Activity) (start completion : Int) : Except ModelError Activity := do
  let startQuantity ← Quantity.ofInt a.base.id "startQuantity" start
  let completionQuantity ← Quantity.ofInt a.base.id "completionQuantity" completion
  return { a with startQuantity, completionQuantity }

def references (a : Activity) : List Reference :=
  a.base.references ++ a.edges.references ++ Ref.optionInField a.defaultFlow "default" ++
    Ref.listInField a.boundaryEventRefs "boundaryEventRefs" ++
    (a.loop.map Loop.references).getD [] ++ (a.data.map DataSpecification.references).getD [] ++
    a.resources.flatMap ResourceRole.references

end Activity

end BpmnModel
