import BpmnModel.Element.Collaboration
import BpmnModel.Element.Definition
import BpmnModel.Element.Interface
import BpmnModel.Element.Process
import BpmnModel.Element.Relationship

/-!
# Elements

* `Root` — the elements that a scope owns directly, relationships apart. Models `RootElement`.
* `Element` — any element that has an identifier and a place in the ownership tree. Models `Entity`,
  and `Element.root` its view of a `RootElement`.
* `Element.identity_root`, `Element.kind_root` — the tables of identities and of kinds that
  `RootElement` and `Entity` have each agree on root elements.
* `Element.children`, `Element.child?` — what an element owns; the second looks in each owned list
  by itself and uses the directories. Model `Entity.children` and `Entity.child`.
* `Element.references` — what an element points at, without what its children point at. Models
  `Entity.references`.
* `Element.edges?`, `Element.container?`, `Element.flowElement?` — model `Entity.flow_node`,
  `Entity.container` and `Entity.as_flow_element`.
-/

namespace BpmnModel

/-- An element that a scope owns directly. -/
inductive Root where
  | process (p : Process)
  | collaboration (c : Collaboration)
  | interface (i : Interface)
  | endPoint (e : EndPoint)
  | message (m : Message)
  | itemDefinition (d : ItemDefinition)
  | error (e : ErrorDefinition)
  | escalation (e : Escalation)
  | resource (r : Resource)
  | category (c : Category)
  | correlationProperty (p : CorrelationProperty)

/-- An element of the ownership tree. -/
inductive Element where
  | root (r : Root)
  | operation (o : Operation)
  | resourceParameter (p : ResourceParameter)
  | categoryValue (v : CategoryValue)
  | correlationKey (k : CorrelationKey)
  | participant (p : Participant)
  | messageFlow (f : MessageFlow)
  | conversationNode (n : ConversationNode)
  | conversationLink (l : ConversationLink)
  | flowElement (e : FlowElement)
  | laneSet (s : LaneSet)
  | lane (l : Lane)
  | artifact (a : Artifact)
  | relationship (r : Relationship)

namespace Root

def identity : Root → Identity
  | process p => p.identity
  | collaboration c => c.identity
  | interface i => i.identity
  | endPoint e => e.identity
  | message m => m.identity
  | itemDefinition d => d.identity
  | error e => e.identity
  | escalation e => e.identity
  | resource r => r.identity
  | category c => c.identity
  | correlationProperty p => p.identity

def id (r : Root) : Id := r.identity.id

def kind : Root → Kind
  | process _ => .process
  | collaboration c => c.kind
  | interface _ => .interface
  | endPoint _ => .endPoint
  | message _ => .message
  | itemDefinition _ => .itemDefinition
  | error _ => .error
  | escalation _ => .escalation
  | resource _ => .resource
  | category _ => .category
  | correlationProperty _ => .correlationProperty

def references : Root → List Reference
  | process p => p.references
  | collaboration c => c.references
  | message m => m.references
  | itemDefinition d => d.references
  | error e => e.references
  | escalation e => e.references
  | correlationProperty p => p.references
  | interface i => i.identity.references
  | endPoint e => e.identity.references
  | resource r => r.identity.references
  | category c => c.identity.references

/-- Equality of root elements; the order of flow elements does not count. -/
def same : Root → Root → Bool
  | process p, process q => p.same q
  | collaboration c, collaboration d => c.same d
  | interface i, interface j => i == j
  | endPoint e, endPoint f => e == f
  | message m, message n => m == n
  | itemDefinition d, itemDefinition e => d == e
  | error e, error f => e == f
  | escalation e, escalation f => e == f
  | resource r, resource s => r == s
  | category c, category d => c == d
  | correlationProperty p, correlationProperty q => p == q
  | _, _ => false

/-- The root elements that can be built: what a process contains was assembled. -/
def Assembled : Root → Prop
  | process p => p.Assembled
  | _ => True

end Root

namespace Container

/-- The elements that the owner of the container owns through it. -/
def owned (c : Container) : List Element :=
  c.elements.map .flowElement ++ c.laneSets.map .laneSet

/-- The flow element or else the lane set with this identifier. -/
def owned? (c : Container) (id : Id) : Option Element :=
  ((c.find? id).map .flowElement).or ((c.laneSets.find? (·.identity.id = id)).map .laneSet)

end Container

namespace Element

/-- The identity of an element.  Root elements have theirs here as well (`identity_root`). -/
def identity : Element → Identity
  | root (.process p) => p.identity
  | root (.collaboration c) => c.identity
  | root (.interface i) => i.identity
  | root (.endPoint e) => e.identity
  | root (.message m) => m.identity
  | root (.itemDefinition d) => d.identity
  | root (.error e) => e.identity
  | root (.escalation e) => e.identity
  | root (.resource r) => r.identity
  | root (.category c) => c.identity
  | root (.correlationProperty p) => p.identity
  | operation o => o.identity
  | resourceParameter p => p.identity
  | categoryValue v => v.identity
  | correlationKey k => k.identity
  | participant p => p.identity
  | messageFlow f => f.identity
  | conversationNode n => n.identity
  | conversationLink l => l.identity
  | flowElement e => e.base.identity
  | laneSet s => s.identity
  | lane l => l.identity
  | artifact a => a.identity
  | relationship r => r.identity

theorem identity_root (r : Root) : (root r).identity = r.identity := by
  cases r <;> rfl

def id (e : Element) : Id := e.identity.id

theorem id_root (r : Root) : (root r).id = r.id := congrArg Identity.id (identity_root r)

/-- The kind of an element.  Root elements have their kinds here as well (`kind_root`). -/
def kind : Element → Kind
  | root (.process _) => .process
  | root (.collaboration c) => c.kind
  | root (.interface _) => .interface
  | root (.endPoint _) => .endPoint
  | root (.message _) => .message
  | root (.itemDefinition _) => .itemDefinition
  | root (.error _) => .error
  | root (.escalation _) => .escalation
  | root (.resource _) => .resource
  | root (.category _) => .category
  | root (.correlationProperty _) => .correlationProperty
  | operation _ => .operation
  | resourceParameter _ => .resourceParameter
  | categoryValue _ => .categoryValue
  | correlationKey _ => .correlationKey
  | participant _ => .participant
  | messageFlow _ => .messageFlow
  | conversationNode n => n.kind
  | conversationLink _ => .conversationLink
  | flowElement e => e.kind
  | laneSet _ => .laneSet
  | lane _ => .lane
  | artifact a => a.kind
  | relationship _ => .relationship

/-- The two tables of kinds agree on root elements. -/
theorem kind_root (r : Root) : (root r).kind = r.kind := by
  cases r <;> rfl

/-- The elements that the element owns directly, in document order. -/
def children : Element → List Element
  | root (.process p) => p.container.owned ++ p.artifacts.map artifact
  | root (.collaboration c) =>
    c.participants.items.map participant ++ c.messageFlows.items.map messageFlow ++
      c.conversations.items.map conversationNode ++ c.links.items.map conversationLink ++
      c.artifacts.map artifact ++ c.correlationKeys.map correlationKey
  | root (.interface i) => i.operations.items.map operation
  | root (.resource r) => r.parameters.map resourceParameter
  | root (.category c) => c.values.map categoryValue
  | conversationNode n => n.nodes.map conversationNode ++ n.base.correlationKeys.map correlationKey
  | flowElement (.subProcess _ _ es ls as) => Container.owned ⟨es, ls⟩ ++ as.map artifact
  | laneSet s => s.lanes.map lane
  | _ => []

private def artifact? (as : List Artifact) (id : Id) : Option Element :=
  (as.find? (·.id = id)).map artifact

/-- The child with this identifier. -/
def child? (e : Element) (id : Id) : Option Element :=
  match e with
  | root (.process p) => (p.container.owned? id).or (artifact? p.artifacts id)
  | root (.collaboration c) =>
    ((c.participants.find? id).map participant).or <|
    ((c.messageFlows.find? id).map messageFlow).or <|
    ((c.conversations.find? id).map conversationNode).or <|
    ((c.links.find? id).map conversationLink).or <|
    (artifact? c.artifacts id).or
      ((c.correlationKeys.find? (·.identity.id = id)).map correlationKey)
  | root (.interface i) => (i.operations.find? id).map operation
  | flowElement (.subProcess _ _ es ls as) => (Container.owned? ⟨es, ls⟩ id).or (artifact? as id)
  | flowElement _ => none
  | e => e.children.find? (·.id = id)

/-- The references that the element holds, without those of its children. -/
def references : Element → List Reference
  | root r => r.references
  | operation o => o.references
  | resourceParameter p => p.references
  | categoryValue v => v.identity.references
  | correlationKey k => k.references
  | participant p => p.references
  | messageFlow f => f.references
  | conversationNode n => n.references
  | conversationLink l => l.references
  | flowElement e => e.references
  | laneSet s => s.identity.references
  | lane l => l.references
  | artifact a => a.references
  | relationship r => r.references

/-- The flows listed at the element, if it is a flow node. -/
def edges? : Element → Option Edges
  | flowElement e => e.edges?
  | _ => none

/-- What the element contains, if it is a process or sub-process. -/
def container? : Element → Option Container
  | root (.process p) => some p.container
  | flowElement e => e.container?
  | _ => none

/-- The flow element that the element is. -/
def flowElement? : Element → Option FlowElement
  | flowElement e => some e
  | _ => none

/-- The root element that the element is. -/
def root? : Element → Option Root
  | root r => some r
  | _ => none

end Element

end BpmnModel
