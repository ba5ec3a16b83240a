import BpmnModel.Scope.Basic

/-!
# Traversal

`Scope.visits` lists what a walk over a scope meets, owners before what they own. Each element is
met once for its references. A process, a collaboration or a conversation link is met by itself just
before. The container of a process or sub-process is met just after its owner, and then its flow
elements, each with the container.

Models the default methods of `Visitor`, from `visit_definitions` and `visit_entity` down; a `Visit`
is one call of a method that a rule looks at.
-/

namespace BpmnModel

/-- One thing that a walk over a scope meets. -/
inductive Visit where
  | process (p : Process)
  | collaboration (c : Collaboration)
  | link (l : ConversationLink)
  | references (e : Element)
  | container (owner : Element) (c : Container)
  | flowElement (e : FlowElement) (container : Container)

/-- The flow elements of a container, each with the container. -/
def Container.visits (c : Container) : List Visit :=
  c.elements.map fun e => .flowElement e c

/-- A lane set, then its lanes. -/
def LaneSet.visits (s : LaneSet) : List Visit :=
  .references (.laneSet s) :: s.lanes.map fun l => .references (.lane l)

namespace ConversationNode

mutual

/-- A conversation node, then the nodes nested in it, then its keys. -/
def visits : ConversationNode → List Visit
  | conversation b fs =>
    .references (.conversationNode (conversation b fs)) ::
      b.correlationKeys.map fun k => .references (.correlationKey k)
  | subConversation b fs ns =>
    .references (.conversationNode (subConversation b fs ns)) ::
      (allVisits ns ++ b.correlationKeys.map fun k => .references (.correlationKey k))
  | callConversation b c as =>
    .references (.conversationNode (callConversation b c as)) ::
      b.correlationKeys.map fun k => .references (.correlationKey k)

/-- Several conversation nodes in order. -/
def allVisits : List ConversationNode → List Visit
  | [] => []
  | n :: ns => visits n ++ allVisits ns

end

end ConversationNode

namespace FlowElement

mutual

/-- A flow element, then the contents of a sub-process. -/
def visits : FlowElement → List Visit
  | subProcess a t es ls as =>
    .references (.flowElement (subProcess a t es ls as)) ::
      .container (.flowElement (subProcess a t es ls as)) ⟨es, ls⟩ ::
      (Container.visits ⟨es, ls⟩ ++ allVisits es ++ ls.flatMap LaneSet.visits ++
        as.map fun x => .references (.artifact x))
  | task a w => [.references (.flowElement (task a w))]
  | callActivity a c => [.references (.flowElement (callActivity a c))]
  | gateway g => [.references (.flowElement (gateway g))]
  | event e => [.references (.flowElement (event e))]
  | sequenceFlow f => [.references (.flowElement (sequenceFlow f))]

/-- Several flow elements in order. -/
def allVisits : List FlowElement → List Visit
  | [] => []
  | e :: es => visits e ++ allVisits es

end

end FlowElement

namespace Process

/-- A process, then what it owns. -/
def visits (p : Process) : List Visit :=
  .process p :: .references (.root (.process p)) :: .container (.root (.process p)) p.container ::
    (p.container.visits ++ FlowElement.allVisits p.container.elements ++
      p.container.laneSets.flatMap LaneSet.visits ++
      p.artifacts.map fun x => .references (.artifact x))

end Process

namespace Collaboration

/-- A collaboration, then what it owns. -/
def visits (c : Collaboration) : List Visit :=
  .collaboration c :: .references (.root (.collaboration c)) ::
    ((c.participants.items.map fun p => .references (.participant p)) ++
      (c.messageFlows.items.map fun f => .references (.messageFlow f)) ++
      ConversationNode.allVisits c.conversations.items ++
      (c.links.items.flatMap fun l => [.link l, .references (.conversationLink l)]) ++
      (c.artifacts.map fun x => .references (.artifact x)) ++
      c.correlationKeys.map fun k => .references (.correlationKey k))

end Collaboration

namespace Root

/-- A root element, then what it owns. -/
def visits : Root → List Visit
  | process p => p.visits
  | collaboration c => c.visits
  | interface i =>
    .references (.root (interface i)) ::
      i.operations.items.map fun o => .references (.operation o)
  | resource r =>
    .references (.root (resource r)) ::
      r.parameters.map fun p => .references (.resourceParameter p)
  | category c =>
    .references (.root (category c)) :: c.values.map fun v => .references (.categoryValue v)
  | r => [.references (.root r)]

end Root

namespace Scope

/-- What a walk over a scope meets: root elements, then relationships. -/
def visits (s : Scope) : List Visit :=
  s.roots.flatMap Root.visits ++ s.relationships.map fun r => .references (.relationship r)

end Scope

end BpmnModel
