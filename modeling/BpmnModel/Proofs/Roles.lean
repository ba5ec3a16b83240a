import BpmnModel.Element.Basic

/-!
# Roles and the structure of elements

The roles of an element are declared for its kind, in one table.  What the roles stand for is read
off the element itself, by functions that know nothing of the table.

* `Element.shows` — whether the structure of an element has what a role stands for.
* `TaskWork.has_kind` to `Collaboration.has_kind` — a shape with several kinds has the same roles
  under each of them.
* `Element.kind_has` — the table declares for every element exactly the roles that it shows.
-/

namespace BpmnModel

/-! ## What roles stand for -/

namespace Element

/-- The activity that the element is, whatever its work. -/
def activity? (e : Element) : Option Activity := e.flowElement?.bind FlowElement.activity?

/-- Whether the structure of the element has what the role stands for. -/
def shows (e : Element) : Capability → Bool
  | .identifiable => true
  | .rootElement => e.root?.isSome
  | .flowElement => e.flowElement?.isSome
  | .flowNode => e.edges?.isSome
  | .activity => e.activity?.isSome
  | .event => (e matches flowElement (.event _))
  | .container => e.container?.isSome
  | .interactionNode =>
    (e matches participant _ | flowElement (.event _)) || e.activity?.isSome
  | .callable => (e matches root (.process _))
  | .conversationNode => (e matches conversationNode _)
  | .artifact => (e matches artifact _)

end Element

/-! ## Shapes with several kinds -/

/-- Whatever its work, a task has the roles of a plain one. -/
theorem TaskWork.has_kind (w : TaskWork) : w.kind.has = Kind.task.has := by
  cases w <;> rfl

/-- Wherever it stands, an event has the roles of a start event. -/
theorem EventPosition.has_kind (p : EventPosition) : p.kind.has = Kind.startEvent.has := by
  cases p <;> rfl

theorem Artifact.has_kind (a : Artifact) : a.kind.has = Kind.association.has := by
  cases a <;> rfl

theorem ConversationNode.has_kind (n : ConversationNode) :
    n.kind.has = Kind.conversation.has := by
  cases n <;> rfl

/-- Meant for reuse or not, a collaboration has the same roles. -/
theorem Collaboration.has_kind (c : Collaboration) : c.kind.has = Kind.collaboration.has := by
  rw [kind]
  cases c.isGlobal <;> rfl

/-! ## The table and the structure -/

-- Each case is one row of the table, compared with the shape role by role.

theorem Root.kind_has (r : Root) (c : Capability) : r.kind.has c = (Element.root r).shows c := by
  cases r with
  | collaboration x =>
    rw [kind, x.has_kind]
    cases c <;> rfl
  | _ => cases c <;> rfl

theorem FlowElement.kind_has (e : FlowElement) (c : Capability) :
    e.kind.has c = (Element.flowElement e).shows c := by
  cases e with
  | task a w =>
    rw [kind, w.has_kind]
    cases c <;> rfl
  | event x =>
    rw [kind, x.position.has_kind]
    cases c <;> rfl
  | _ => cases c <;> rfl

/-- **The roles declared for the kind of an element are those that its structure shows.** -/
theorem Element.kind_has (e : Element) (c : Capability) : e.kind.has c = e.shows c := by
  cases e with
  | root r =>
    rw [kind_root]
    exact r.kind_has c
  | flowElement f => exact f.kind_has c
  | conversationNode n =>
    rw [kind, n.has_kind]
    cases c <;> rfl
  | artifact a =>
    rw [kind, a.has_kind]
    cases c <;> rfl
  | _ => cases c <;> rfl

end BpmnModel
