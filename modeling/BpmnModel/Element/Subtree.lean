import BpmnModel.Element.Basic

/-!
# Ownership trees

* `Element.placed` — the element and all that it owns, owners before what they own, each with the
  identifier of its owner. Models the recursion of `collect` over `Entity.children`.
* `Element.subtree` — the same without the owners.
-/

namespace BpmnModel

/-- An element with the identifier of its owner; an element of a scope's own has none. -/
structure Placed where
  owner : Option Id
  element : Element

namespace Placed

def id (p : Placed) : Id := p.element.id

end Placed

namespace LaneSet

/-- The lane set and its lanes. -/
def placed (owner : Option Id) (s : LaneSet) : List Placed :=
  ⟨owner, .laneSet s⟩ :: s.lanes.map fun l => ⟨some s.identity.id, .lane l⟩

end LaneSet

namespace ConversationNode

mutual

/-- The node, the nodes nested in it and their keys. -/
def placed (owner : Option Id) : ConversationNode → List Placed
  | conversation b fs =>
    ⟨owner, .conversationNode (conversation b fs)⟩ ::
      b.correlationKeys.map fun k => ⟨some b.identity.id, .correlationKey k⟩
  | subConversation b fs ns =>
    ⟨owner, .conversationNode (subConversation b fs ns)⟩ ::
      (placedAll b.identity.id ns ++
        b.correlationKeys.map fun k => ⟨some b.identity.id, .correlationKey k⟩)
  | callConversation b c as =>
    ⟨owner, .conversationNode (callConversation b c as)⟩ ::
      b.correlationKeys.map fun k => ⟨some b.identity.id, .correlationKey k⟩

/-- The trees of several nodes of one owner. -/
def placedAll (owner : Id) : List ConversationNode → List Placed
  | [] => []
  | n :: ns => placed (some owner) n ++ placedAll owner ns

end

end ConversationNode

namespace FlowElement

mutual

/-- The flow element and, if it is a sub-process, its contents. -/
def placed (owner : Option Id) : FlowElement → List Placed
  | subProcess a t es ls as =>
    ⟨owner, .flowElement (subProcess a t es ls as)⟩ ::
      (placedAll a.base.id es ++ ls.flatMap (LaneSet.placed (some a.base.id)) ++
        as.map fun x => ⟨some a.base.id, .artifact x⟩)
  | task a w => [⟨owner, .flowElement (task a w)⟩]
  | callActivity a c => [⟨owner, .flowElement (callActivity a c)⟩]
  | gateway g => [⟨owner, .flowElement (gateway g)⟩]
  | event e => [⟨owner, .flowElement (event e)⟩]
  | sequenceFlow f => [⟨owner, .flowElement (sequenceFlow f)⟩]

/-- The trees of several flow elements of one owner. -/
def placedAll (owner : Id) : List FlowElement → List Placed
  | [] => []
  | e :: es => placed (some owner) e ++ placedAll owner es

end

end FlowElement

namespace Root

/-- The root element and all that it owns. -/
def placed (r : Root) (owner : Option Id) : List Placed :=
  let own (e : Element) : Placed := ⟨some r.id, e⟩
  ⟨owner, .root r⟩ ::
    match r with
    | process p =>
      FlowElement.placedAll r.id p.container.elements ++
        p.container.laneSets.flatMap (LaneSet.placed (some r.id)) ++
        p.artifacts.map (own ∘ .artifact)
    | collaboration c =>
      c.participants.items.map (own ∘ .participant) ++
        c.messageFlows.items.map (own ∘ .messageFlow) ++
        ConversationNode.placedAll r.id c.conversations.items ++
        c.links.items.map (own ∘ .conversationLink) ++ c.artifacts.map (own ∘ .artifact) ++
        c.correlationKeys.map (own ∘ .correlationKey)
    | interface i => i.operations.items.map (own ∘ .operation)
    | resource x => x.parameters.map (own ∘ .resourceParameter)
    | category c => c.values.map (own ∘ .categoryValue)
    | _ => []

end Root

namespace Element

/-- The element and all that it owns, owners first, each with its owner. -/
def placed (owner : Option Id) : Element → List Placed
  | root r => r.placed owner
  | conversationNode n => n.placed owner
  | flowElement e => e.placed owner
  | laneSet s => s.placed owner
  | e => [⟨owner, e⟩]

/-- The element and all that it owns, owners first. -/
def subtree (e : Element) : List Element :=
  (e.placed none).map Placed.element

end Element

end BpmnModel
