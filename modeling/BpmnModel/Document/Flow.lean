import BpmnModel.Document.Artifact
import BpmnModel.Document.FlowNode
import BpmnModel.Element.Process

/-!
# Processes in documents

* `FlowElement.ofNode`, `FlowElement.toNode` — any flow element, a sub-process with its contents.
  Model the functions `flow_element` of the import and the export; the readers and writers of lanes
  and lane sets model `lane`, `lane_set` and `container`.
* `Contents` — what a process or sub-process owns, sorted from its children. Models `Contents.read`.
* `Process.ofNode`, `Process.toNode` — a process. Model the functions `process`.
-/

namespace BpmnModel

namespace Lane

def ofNode (n : Node) : Reading Lane := do
  let id ← n.id
  let name ← n.text? "name"
  let flowNodeRefs ← n.refs "flowNodeRefs"
  n.finish ["id", "name", "flowNodeRefs"]
  n.noContent
  return ⟨← Identity.ofNode id n, name, flowNodeRefs⟩

def toNode (l : Lane) : Except DocumentError Node := do
  let n ← l.identity.toNode "lane"
  return (n.setText? "name" l.name).setRefs "flowNodeRefs" l.flowNodeRefs

end Lane

namespace LaneSet

def ofNode (n : Node) : Reading LaneSet := do
  let id ← n.id
  let name ← n.text? "name"
  n.finish ["id", "name"]
  let lanes ← n.content.mapM fun child =>
    if child.label = "lane" then Lane.ofNode child else throw (n.unknownChild child.label)
  return ⟨← Identity.ofNode id n, name, lanes⟩

def toNode (s : LaneSet) : Except DocumentError Node := do
  let n ← s.identity.toNode "laneSet"
  return (n.setText? "name" s.name).pushAll (← s.lanes.mapM Lane.toNode)

end LaneSet

/-- What a process or sub-process owns, before flow elements are wired. -/
structure Contents where
  elements : List FlowElement
  laneSets : List LaneSet
  artifacts : List Artifact

/-- Nothing owned. -/
def Contents.empty : Contents := ⟨[], [], []⟩

namespace FlowElement

mutual

/-- Reads a flow element below a node with the label `parent`. -/
def ofNode (parent : String) : Node → Reading FlowElement
  | ⟨label, attributes, children⟩ =>
    let n : Node := ⟨label, attributes, children⟩
    if label = "sequenceFlow" then sequenceFlow <$> SequenceFlow.ofNode n
    else
      match EventPosition.form? label with
      | some form => event <$> Event.ofNode form n
      | none =>
        match GatewayType.ofLabel? label with
        | some type => gateway <$> Gateway.ofNode type n
        | none =>
          match TaskWork.form? label with
          | some (fields, read) => do
            let draft ← Activity.ofNode n
            Activity.noContent n
            let work ← read n
            n.finish (Activity.fields ++ fields)
            return task (← draft.finish) work
          | none =>
            if label = "callActivity" then do
              let draft ← Activity.ofNode n
              Activity.noContent n
              let calledElement ← n.ref? "calledElement"
              n.finish (Activity.fields ++ ["calledElement"])
              return callActivity (← draft.finish) calledElement
            else if label = "subProcess" then do
              let draft ← Activity.ofNode n
              let triggeredByEvent ← n.flag "triggeredByEvent" false
              let contents ← contentsOfNodes label Loop.isLoop children
              let c ← checked (Container.assemble contents.elements contents.laneSets)
              n.finish (Activity.fields ++ ["triggeredByEvent"])
              return subProcess (← draft.finish) triggeredByEvent c.elements c.laneSets
                contents.artifacts
            else throw (.unknownLabel label parent)

/-- Sorts and reads the children of a node with the label `parent`. Documentation and what is told
apart by `skip` is passed over. -/
def contentsOfNodes (parent : String) (skip : Node → Bool) : List Node → Reading Contents
  | [] => return .empty
  | n :: ns =>
    if n.isDocumentation || skip n then contentsOfNodes parent skip ns
    else
      match Artifact.reader? n.label with
      | some read => do
        let a ← read n
        let c ← contentsOfNodes parent skip ns
        return { c with artifacts := a :: c.artifacts }
      | none =>
        if n.label = "laneSet" then do
          let s ← LaneSet.ofNode n
          let c ← contentsOfNodes parent skip ns
          return { c with laneSets := s :: c.laneSets }
        else do
          let e ← ofNode parent n
          let c ← contentsOfNodes parent skip ns
          return { c with elements := e :: c.elements }

end

mutual

def toNode : FlowElement → Except DocumentError Node
  | task a w => do
    let n ← a.toNode w.label
    return (w.onNode n).pushAll a.loopNodes
  | callActivity a calledElement => do
    let n ← a.toNode "callActivity"
    return (n.setRef? "calledElement" calledElement).pushAll a.loopNodes
  | subProcess a triggeredByEvent es ls as => do
    let n ← a.toNode "subProcess"
    let n := (n.setFlag "triggeredByEvent" triggeredByEvent false).pushAll a.loopNodes
    let elements ← allToNodes es
    let laneSets ← ls.mapM LaneSet.toNode
    let artifacts ← as.mapM Artifact.toNode
    return n.pushAll (elements ++ laneSets ++ artifacts)
  | gateway g => g.toNode
  | event e => e.toNode
  | sequenceFlow f => f.toNode

def allToNodes : List FlowElement → Except DocumentError (List Node)
  | [] => return []
  | e :: es => do
    let n ← toNode e
    return n :: (← allToNodes es)

end

end FlowElement

namespace Process

def ofNode (n : Node) : Reading Process := do
  let id ← n.id
  let identity ← Identity.ofNode id n
  let name ← n.text? "name"
  let type ← n.word "processType"
  let isExecutable ← n.flag? "isExecutable"
  let isClosed ← n.flag "isClosed" false
  let supports ← n.refs "supports"
  let definitionalCollaborationRef ← n.ref? "definitionalCollaborationRef"
  let supportedInterfaceRefs ← n.refs "supportedInterfaceRefs"
  n.finish ["id", "name", "processType", "isExecutable", "isClosed", "supports",
    "definitionalCollaborationRef", "supportedInterfaceRefs"]
  let contents ← FlowElement.contentsOfNodes n.label (fun _ => false) n.children
  let container ← checked (Container.assemble contents.elements contents.laneSets)
  return { Process.bare id with
    identity, name, type, isExecutable, isClosed, container, supports, supportedInterfaceRefs
    definitionalCollaborationRef, artifacts := contents.artifacts }

def toNode (p : Process) : Except DocumentError Node := do
  if !p.resources.isEmpty then throw (.unsupported p.identity.id .resourceRoles)
  if !p.subscriptions.isEmpty then throw (.unsupported p.identity.id .correlationSubscriptions)
  let n ← p.identity.toNode "process"
  let n := (n.setText? "name" p.name).setWord "processType" p.type
  let n := (n.set? "isExecutable" (p.isExecutable.map .flag)).setFlag "isClosed" p.isClosed false
  let n := n.setRefs "supports" p.supports
  let n := n.setRef? "definitionalCollaborationRef" p.definitionalCollaborationRef
  let n := n.setRefs "supportedInterfaceRefs" p.supportedInterfaceRefs
  let elements ← FlowElement.allToNodes p.container.elements
  let laneSets ← p.container.laneSets.mapM LaneSet.toNode
  let artifacts ← p.artifacts.mapM Artifact.toNode
  return n.pushAll (elements ++ laneSets ++ artifacts)

end Process

end BpmnModel
