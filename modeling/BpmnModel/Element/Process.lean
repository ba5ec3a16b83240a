import BpmnModel.Element.Correlation
import BpmnModel.Element.Wiring

/-!
# Processes

A process owns a container, can be called, and may name the collaboration it belongs to. Models
`Process` with its `CallableRole`.

* `Process.Assembled` — the processes that can be built: the container was assembled.
-/

namespace BpmnModel

/-- A top-level flow definition. -/
structure Process where
  identity : Identity
  name : Option String
  type : ProcessType
  isExecutable : Option Bool
  isClosed : Bool
  container : Container
  artifacts : List Artifact
  resources : List ResourceRole
  subscriptions : List CorrelationSubscription
  supportedInterfaceRefs : List (RefTo .interface)
  supports : List (RefTo .process)
  definitionalCollaborationRef : Option (Ref .anyCollaboration)

namespace Process

/-- A process with nothing but an identifier. -/
def bare (id : Id) : Process where
  identity := .bare id
  name := none
  type := default
  isExecutable := none
  isClosed := false
  container := .empty
  artifacts := []
  resources := []
  subscriptions := []
  supportedInterfaceRefs := []
  supports := []
  definitionalCollaborationRef := none

/-- The references of the process itself, without those of its contents. -/
def references (p : Process) : List Reference :=
  p.identity.references ++ Ref.listInField p.supportedInterfaceRefs "supportedInterfaceRefs" ++
    Ref.listInField p.supports "supports" ++
    Ref.optionInField p.definitionalCollaborationRef "definitionalCollaborationRef" ++
    p.resources.flatMap ResourceRole.references ++
    p.subscriptions.flatMap CorrelationSubscription.references

/-- Equality of processes; the order of flow elements does not count. -/
def same (p q : Process) : Bool :=
  p.identity == q.identity && p.name == q.name && p.type == q.type &&
    p.isExecutable == q.isExecutable && p.isClosed == q.isClosed &&
    p.container.same q.container && p.artifacts == q.artifacts && p.resources == q.resources &&
    p.subscriptions == q.subscriptions && p.supportedInterfaceRefs == q.supportedInterfaceRefs &&
    p.supports == q.supports && p.definitionalCollaborationRef == q.definitionalCollaborationRef

/-- The processes whose contents were assembled. -/
def Assembled (p : Process) : Prop :=
  ∃ elements laneSets, (∀ e ∈ elements, FlowElement.Assembled e) ∧
    Container.assemble elements laneSets = .ok p.container

end Process

end BpmnModel
