import BpmnModel.Element.Artifact
import BpmnModel.Element.FlowNode

/-!
# Flow elements and containers

* `FlowElement` — what a process is drawn with; a sub-process contains flow elements again. Models
  `FlowElement`, in which an `ActivityKind` tells a task, a call and a sub-process apart.
* `Container` — flow elements and lane sets under one owner. Models `ContainerRole`.
* `FlowElement.container?` and `FlowElement.mapContainer` — the contents of a sub-process. Model
  `container` and `container_mut`.
* `FlowElement.same` — equality in which the order of flow elements does not count.
-/

namespace BpmnModel

/-- A partition of the flow nodes of a container. -/
structure Lane where
  identity : Identity
  name : Option String
  flowNodeRefs : List (Ref .anyFlowNode)
deriving DecidableEq

namespace Lane

def references (l : Lane) : List Reference :=
  l.identity.references ++ Ref.listInField l.flowNodeRefs "flowNodeRef"

end Lane

/-- The lanes of one partition. -/
structure LaneSet where
  identity : Identity
  name : Option String
  lanes : List Lane
deriving DecidableEq

/-- Anything that can stand in a process. -/
inductive FlowElement where
  | task (activity : Activity) (work : TaskWork)
  | callActivity (activity : Activity) (calledElement : Option (Ref .anyCallable))
  | subProcess (activity : Activity) (triggeredByEvent : Bool) (elements : List FlowElement)
      (laneSets : List LaneSet) (artifacts : List Artifact)
  | gateway (gateway : Gateway)
  | event (event : Event)
  | sequenceFlow (flow : SequenceFlow)

/-- Flow elements and lane sets under one owner, in order. -/
structure Container where
  elements : List FlowElement
  laneSets : List LaneSet

namespace FlowElement

def base : FlowElement → FlowBase
  | task a _ | callActivity a _ | subProcess a .. => a.base
  | gateway g => g.base
  | event e => e.base
  | sequenceFlow f => f.base

def id (e : FlowElement) : Id := e.base.id

def kind : FlowElement → Kind
  | task _ w => w.kind
  | callActivity .. => .callActivity
  | subProcess .. => .subProcess
  | gateway _ => .gateway
  | event e => e.position.kind
  | sequenceFlow _ => .sequenceFlow

/-- The activity that the element is, whatever its work. -/
def activity? : FlowElement → Option Activity
  | task a _ | callActivity a _ | subProcess a .. => some a
  | gateway _ | event _ | sequenceFlow _ => none

/-- The sequence flow that the element is. -/
def sequenceFlow? : FlowElement → Option SequenceFlow
  | sequenceFlow f => some f
  | _ => none

/-- The flows listed at the element; a sequence flow lists none. -/
def edges? : FlowElement → Option Edges
  | task a _ | callActivity a _ | subProcess a .. => some a.edges
  | gateway g => some g.edges
  | event e => some e.edges
  | sequenceFlow _ => none

/-- Changes the listed flows of a flow node. -/
def mapEdges (f : Edges → Edges) : FlowElement → FlowElement
  | task a w => task { a with edges := f a.edges } w
  | callActivity a c => callActivity { a with edges := f a.edges } c
  | subProcess a t es ls as => subProcess { a with edges := f a.edges } t es ls as
  | gateway g => gateway { g with edges := f g.edges }
  | event e => event { e with edges := f e.edges }
  | sequenceFlow s => sequenceFlow s

/-- The flow that the element takes when no condition holds. -/
def defaultFlow? : FlowElement → Option (RefTo .sequenceFlow)
  | task a _ | callActivity a _ | subProcess a .. => a.defaultFlow
  | gateway g => g.defaultFlow
  | event _ | sequenceFlow _ => none

/-- The contents of a sub-process. -/
def container? : FlowElement → Option Container
  | subProcess _ _ es ls _ => some ⟨es, ls⟩
  | _ => none

/-- Changes the contents of a sub-process. -/
def mapContainer (f : Container → Container) : FlowElement → FlowElement
  | subProcess a t es ls as =>
    let c := f ⟨es, ls⟩
    subProcess a t c.elements c.laneSets as
  | e => e

def references : FlowElement → List Reference
  | task a w => a.references ++ w.references
  | callActivity a c => a.references ++ Ref.optionInField c "calledElement"
  | subProcess a .. => a.references
  | gateway g => g.references
  | event e => e.references
  | sequenceFlow f => f.references

mutual

/-- Equality of flow elements. What a sub-process contains is compared without regard to order. -/
def same : FlowElement → FlowElement → Bool
  | task a w, task b v => a == b && w == v
  | callActivity a c, callActivity b d => a == b && c == d
  | subProcess a t es ls as, subProcess b u fs ms bs =>
    a == b && t == u && es.length == fs.length && eachIn es fs && ls == ms && as == bs
  | gateway g, gateway h => g == h
  | event e, event f => e == f
  | sequenceFlow f, sequenceFlow g => f == g
  | _, _ => false

/-- Whether each element of the first list is the same as its namesake in the second. -/
def eachIn : List FlowElement → List FlowElement → Bool
  | [], _ => true
  | e :: es, fs =>
    (match fs.find? (·.id = e.id) with
      | some f => same e f
      | none => false) && eachIn es fs

end

end FlowElement

namespace Container

/-- Nothing contained. -/
def empty : Container := ⟨[], []⟩

/-- The flow element with this identifier. -/
def find? (c : Container) (id : Id) : Option FlowElement :=
  c.elements.find? (·.id = id)

/-- The sequence flows, in order. -/
def sequenceFlows (c : Container) : List SequenceFlow :=
  c.elements.filterMap FlowElement.sequenceFlow?

/-- The number of flow elements. -/
def size (c : Container) : Nat := c.elements.length

/-- Equality of contents: flow elements in any order, lane sets in order. -/
def same (c d : Container) : Bool :=
  c.elements.length == d.elements.length && FlowElement.eachIn c.elements d.elements &&
    c.laneSets == d.laneSets

end Container

end BpmnModel
