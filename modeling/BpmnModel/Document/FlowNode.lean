import BpmnModel.Document.Description
import BpmnModel.Element.FlowNode

/-!
# Flow nodes and sequence flows in documents

Gateways, the positions of events and the kinds of task are told by the label. The readers of an
activity check that at most one child describes a loop.

Models `element_options`, `flow_node_role`, `sequence_flow`, `gateway`, `event`, `event_definition`,
`task_kind`, `implementation`, `loop_characteristics` and `activity` of the import, and the
functions `edges`, `task_label`, `task_attributes` and those of the same names of the export.
-/

namespace BpmnModel

namespace FlowBase

/-- The fields that `ofNode` reads. -/
def fields : List String := ["id", "name", "categoryValueRefs"]

def ofNode (n : Node) : Reading FlowBase := do
  let id ← n.id
  let identity ← Identity.ofNode id n
  let name ← n.text? "name"
  let categoryValueRefs ← n.refs "categoryValueRefs"
  return ⟨identity, name, categoryValueRefs⟩

def toNode (label : String) (b : FlowBase) : Except DocumentError Node := do
  let n ← b.identity.toNode label
  return (n.setText? "name" b.name).setRefs "categoryValueRefs" b.categoryValueRefs

end FlowBase

namespace Edges

/-- The fields that `ofNode` reads. -/
def fields : List String := ["incoming", "outgoing"]

def ofNode (n : Node) : Reading Edges := do
  let incoming ← n.refs "incoming"
  let outgoing ← n.refs "outgoing"
  return ⟨incoming, outgoing⟩

/-- Sets the fields of listed flows. -/
def onNode (e : Edges) (n : Node) : Node :=
  (n.setRefs "incoming" e.incoming).setRefs "outgoing" e.outgoing

end Edges

namespace SequenceFlow

/-- The condition among the children of a sequence flow. Besides documentation every child is a
condition, and the last one counts. -/
def conditionOfNodes (n : Node) : List Node → Option Expression → Reading (Option Expression)
  | [], condition => return condition
  | child :: children, _ => do
    if child.label = "conditionExpression" then
      conditionOfNodes n children (some (← Expression.ofNode child))
    else throw (n.unknownChild child.label)

def ofNode (n : Node) : Reading SequenceFlow := do
  let base ← FlowBase.ofNode n
  let source ← n.ref "sourceRef"
  let target ← n.ref "targetRef"
  let isImmediate ← n.flag? "isImmediate"
  n.finish (FlowBase.fields ++ ["sourceRef", "targetRef", "isImmediate"])
  let condition ← conditionOfNodes n n.content none
  return ⟨base, source, target, condition, isImmediate⟩

def toNode (f : SequenceFlow) : Except DocumentError Node := do
  let n ← f.base.toNode "sequenceFlow"
  let n := (n.setRef "sourceRef" f.source).setRef "targetRef" f.target
  let n := n.set? "isImmediate" (f.isImmediate.map .flag)
  return n.pushAll (Expression.toNodes "conditionExpression" f.condition)

end SequenceFlow

namespace GatewayType

/-- The label of gateways of this type. -/
def label : GatewayType → String
  | exclusive => "exclusiveGateway"
  | inclusive => "inclusiveGateway"
  | parallel => "parallelGateway"
  | complex => "complexGateway"
  | eventBased => "eventBasedGateway"

/-- The type of gateways with this label. -/
def ofLabel? (text : String) : Option GatewayType :=
  [exclusive, inclusive, parallel, complex, eventBased].find? (·.label = text)

end GatewayType

namespace Gateway

def ofNode (type : GatewayType) (n : Node) : Reading Gateway := do
  let base ← FlowBase.ofNode n
  let edges ← Edges.ofNode n
  let direction ← n.word "gatewayDirection"
  let defaultFlow ← n.ref? "default"
  n.finish (FlowBase.fields ++ Edges.fields ++ ["gatewayDirection", "default"])
  n.noContent
  return ⟨base, edges, type, direction, defaultFlow⟩

def toNode (g : Gateway) : Except DocumentError Node := do
  let n ← g.base.toNode g.type.label
  return ((g.edges.onNode n).setWord "gatewayDirection" g.direction).setRef? "default"
    g.defaultFlow

end Gateway

namespace EventPosition

/-- What the label of an event tells: the fields that its position adds and how they are read. -/
def form? (label : String) : Option (List String × (Node → Reading EventPosition)) :=
  match label with
  | "startEvent" => some (["isInterrupting"], fun n => start <$> n.flag "isInterrupting" true)
  | "intermediateCatchEvent" => some ([], fun _ => return intermediateCatch)
  | "intermediateThrowEvent" => some ([], fun _ => return intermediateThrow)
  | "endEvent" => some ([], fun _ => return finish)
  | "boundaryEvent" =>
    some (["attachedToRef", "cancelActivity"], fun n => do
      let attachedTo ← n.ref "attachedToRef"
      let cancelActivity ← n.flag "cancelActivity" true
      return boundary attachedTo cancelActivity)
  | _ => none

/-- The label of events in this position. -/
def label : EventPosition → String
  | start _ => "startEvent"
  | intermediateCatch => "intermediateCatchEvent"
  | intermediateThrow => "intermediateThrowEvent"
  | finish => "endEvent"
  | boundary .. => "boundaryEvent"

/-- Sets the fields of the position. -/
def onNode (p : EventPosition) (n : Node) : Node :=
  match p with
  | start isInterrupting => n.setFlag "isInterrupting" isInterrupting true
  | boundary attachedTo cancelActivity =>
    (n.setRef "attachedToRef" attachedTo).setFlag "cancelActivity" cancelActivity true
  | intermediateCatch | intermediateThrow | finish => n

end EventPosition

namespace EventDefinition

/-- Reads a definition below a node with the label `parent`. -/
def ofNode (parent : String) (n : Node) : Reading EventDefinition := do
  match n.label with
  | "messageEventDefinition" =>
    let m ← n.ref? "messageRef"
    let o ← n.ref? "operationRef"
    n.finish ["messageRef", "operationRef"]
    n.noContent
    return message m o
  | "errorEventDefinition" =>
    let e ← n.ref? "errorRef"
    n.finish ["errorRef"]
    n.noContent
    return error e
  | "escalationEventDefinition" =>
    let e ← n.ref? "escalationRef"
    n.finish ["escalationRef"]
    n.noContent
    return escalation e
  | "terminateEventDefinition" =>
    n.finish []
    n.noContent
    return terminate
  | label => throw (.unknownLabel label parent)

def toNode : EventDefinition → Node
  | message m o =>
    ((Node.bare "messageEventDefinition").setRef? "messageRef" m).setRef? "operationRef" o
  | error e => (Node.bare "errorEventDefinition").setRef? "errorRef" e
  | escalation e => (Node.bare "escalationEventDefinition").setRef? "escalationRef" e
  | terminate => Node.bare "terminateEventDefinition"

end EventDefinition

namespace Event

/-- Reads an event whose label has the given form. -/
def ofNode (form : List String × (Node → Reading EventPosition)) (n : Node) : Reading Event := do
  let base ← FlowBase.ofNode n
  let edges ← Edges.ofNode n
  let position ← form.2 n
  n.finish (FlowBase.fields ++ Edges.fields ++ form.1)
  let definitions ← n.content.mapM (EventDefinition.ofNode n.label)
  checked (Event.of base edges position definitions)

def toNode (e : Event) : Except DocumentError Node := do
  let n ← e.base.toNode e.position.label
  return (e.position.onNode (e.edges.onNode n)).pushAll (e.definitions.map EventDefinition.toNode)

end Event

namespace Implementation

/-- Reads the technology of a task; none is unspecified. -/
def ofNode (n : Node) : Reading Implementation := do
  return ((← n.text? "implementation").map ofText).getD unspecified

/-- Sets the technology of a task unless it is unspecified. -/
def onNode (i : Implementation) (n : Node) : Node :=
  if i = unspecified then n else n.setText "implementation" i.text

end Implementation

namespace TaskWork

/-- What the label of a task tells: the fields that its kind adds and how they are read. -/
def form? (label : String) : Option (List String × (Node → Reading TaskWork)) :=
  match label with
  | "task" => some ([], fun _ => return plain)
  | "serviceTask" =>
    some (["implementation", "operationRef"], fun n => do
      let i ← Implementation.ofNode n
      let o ← n.ref? "operationRef"
      return service i o)
  | "sendTask" =>
    some (["implementation", "messageRef", "operationRef"], fun n => do
      let i ← Implementation.ofNode n
      let m ← n.ref? "messageRef"
      let o ← n.ref? "operationRef"
      return send i m o)
  | "receiveTask" =>
    some (["implementation", "instantiate", "messageRef", "operationRef"], fun n => do
      let i ← Implementation.ofNode n
      let instantiate ← n.flag "instantiate" false
      let m ← n.ref? "messageRef"
      let o ← n.ref? "operationRef"
      return receive i instantiate m o)
  | "businessRuleTask" => some (["implementation"], fun n => businessRule <$> Implementation.ofNode n)
  | "scriptTask" =>
    some (["scriptFormat", "script"], fun n => do
      let format ← n.text? "scriptFormat"
      let text ← n.text? "script"
      return script format text)
  | "userTask" =>
    some (["implementation", "renderings"], fun n => do
      let i ← Implementation.ofNode n
      let renderings ← n.texts "renderings"
      return user i renderings)
  | "manualTask" => some ([], fun _ => return manual)
  | _ => none

/-- The label of tasks of this kind. -/
def label : TaskWork → String
  | plain => "task"
  | service .. => "serviceTask"
  | send .. => "sendTask"
  | receive .. => "receiveTask"
  | businessRule _ => "businessRuleTask"
  | script .. => "scriptTask"
  | user .. => "userTask"
  | manual => "manualTask"

/-- Sets the fields of the kind of task. -/
def onNode (w : TaskWork) (n : Node) : Node :=
  match w with
  | plain | manual => n
  | service i o => (i.onNode n).setRef? "operationRef" o
  | send i m o => ((i.onNode n).setRef? "messageRef" m).setRef? "operationRef" o
  | receive i instantiate m o =>
    (((i.onNode n).setFlag "instantiate" instantiate false).setRef? "messageRef" m).setRef?
      "operationRef" o
  | businessRule i => i.onNode n
  | script format text => (n.setText? "scriptFormat" format).setText? "script" text
  | user i renderings => (i.onNode n).setTexts "renderings" renderings

end TaskWork

namespace Loop

/-- Whether the node describes a loop. -/
def isLoop (n : Node) : Bool :=
  n.label = "standardLoopCharacteristics" || n.label = "multiInstanceLoopCharacteristics"

/-- The expressions among the children of a loop, by the label of their role. Every child is one,
and of several with one label the last counts. -/
def expressionsOfNodes (n : Node) (roles : List String) :
    List Node → List (String × Expression) → Reading (List (String × Expression))
  | [], found => return found
  | child :: children, found => do
    if roles.contains child.label then
      let e ← Expression.ofNode child
      expressionsOfNodes n roles children ((child.label, e) :: found)
    else throw (n.unknownChild child.label)

def ofNode (n : Node) : Reading Loop := do
  if n.label = "standardLoopCharacteristics" then
    let testBefore ← n.flag "testBefore" false
    let maximum ← n.count? "loopMaximum"
    let found ← expressionsOfNodes n ["loopCondition"] n.children []
    n.finish ["testBefore", "loopMaximum"]
    return standard testBefore maximum (found.lookup "loopCondition")
  else
    let isSequential ← n.flag "isSequential" false
    let found ← expressionsOfNodes n ["loopCardinality", "completionCondition"] n.children []
    n.finish ["isSequential"]
    return multiInstance isSequential (found.lookup "loopCardinality")
      (found.lookup "completionCondition")

def toNode : Loop → Node
  | standard testBefore maximum condition =>
    let n := (Node.bare "standardLoopCharacteristics").setFlag "testBefore" testBefore false
    (n.set? "loopMaximum" (maximum.map .ofCount)).pushAll
      (Expression.toNodes "loopCondition" condition)
  | multiInstance isSequential cardinality completion =>
    let n := (Node.bare "multiInstanceLoopCharacteristics").setFlag "isSequential" isSequential false
    n.pushAll (Expression.toNodes "loopCardinality" cardinality ++
      Expression.toNodes "completionCondition" completion)

/-- The loop among the children of an activity, of which there may be one. -/
def ofChildren (owner : Id) (n : Node) : Reading (Option Loop) :=
  match n.content.filter isLoop with
  | [] => return none
  | [child] => some <$> ofNode child
  | _ => throw (.model (.multiplicity owner.text "loopCharacteristics"
      "at most one loop characteristics element is allowed"))

end Loop

/-- An activity as a document gives it: the quantities are still to be checked. -/
structure ActivityDraft where
  activity : Activity
  startQuantity : Int
  completionQuantity : Int

namespace ActivityDraft

/-- Checks the quantities. -/
def finish (d : ActivityDraft) : Reading Activity :=
  checked (d.activity.withQuantities d.startQuantity d.completionQuantity)

end ActivityDraft

namespace Activity

/-- The fields that `ofNode` reads. -/
def fields : List String :=
  FlowBase.fields ++ Edges.fields ++
    ["isForCompensation", "default", "boundaryEventRefs", "startQuantity", "completionQuantity"]

/-- Reads what all activities have: fields first, then the loop. -/
def ofNode (n : Node) : Reading ActivityDraft := do
  let base ← FlowBase.ofNode n
  let edges ← Edges.ofNode n
  let isForCompensation ← n.flag "isForCompensation" false
  let defaultFlow ← n.ref? "default"
  let boundaryEventRefs ← n.refs "boundaryEventRefs"
  let startQuantity := (← n.integer? "startQuantity").getD 1
  let completionQuantity := (← n.integer? "completionQuantity").getD 1
  let loop ← Loop.ofChildren base.id n
  let activity :=
    { Activity.bare base.id with
      base, edges, isForCompensation, defaultFlow, boundaryEventRefs, loop }
  return ⟨activity, startQuantity, completionQuantity⟩

/-- Refuses the first child that neither documents an activity nor describes its loop. -/
def noContent (n : Node) : Reading Unit :=
  match n.content.filter (!Loop.isLoop ·) with
  | [] => return ()
  | child :: _ => throw (n.unknownChild child.label)

/-- Sets a quantity unless it is one. -/
def quantityOnNode (name : String) (q : Quantity) (n : Node) : Node :=
  if q = .one then n else n.set name (.ofCount q.count)

/-- A node with this label and the fields of an activity. -/
def toNode (label : String) (a : Activity) : Except DocumentError Node := do
  if a.data.isSome then throw (.unsupported a.base.id .dataSpecification)
  if !a.resources.isEmpty then throw (.unsupported a.base.id .resourceRoles)
  let n ← a.base.toNode label
  let n := (a.edges.onNode n).setFlag "isForCompensation" a.isForCompensation false
  let n := quantityOnNode "startQuantity" a.startQuantity n
  let n := quantityOnNode "completionQuantity" a.completionQuantity n
  return (n.setRef? "default" a.defaultFlow).setRefs "boundaryEventRefs" a.boundaryEventRefs

/-- The node of the loop of an activity, if it has one. -/
def loopNodes (a : Activity) : List Node :=
  (a.loop.map Loop.toNode).toList

end Activity

end BpmnModel
