import BpmnModel.Id
import BpmnModel.Kind

/-!
# Requirements and references

* `Requirement` — what the target of a reference has to be; `Requirement.isMetBy` decides it on the
  target's kind. Models `Requirement.is_met_by`.
* `Ref` — an identifier typed by what it must lead to; `RefTo` asks for one kind. Models `Ref`, with
  the `REQUIREMENT` of its `RefTarget` as the type.
* `Reference` — a `Ref` together with the field that holds it, as listed by the reference check.
  `Ref.inField`, `Ref.optionInField` and `Ref.listInField` model `Ref.reference`, `push_opt` and
  `push_all`.
-/

namespace BpmnModel

/-- What the target of a reference has to be. -/
inductive Requirement where
  | capability (c : Capability)
  | anyCapability (cs : List Capability)
  | kind (k : Kind)
  | anyKind (ks : List Kind)
deriving DecidableEq, Repr

namespace Requirement

/-- Whether an element of kind `k` may be the target. -/
def isMetBy (r : Requirement) (k : Kind) : Bool :=
  match r with
  | capability c => k.has c
  | anyCapability cs => cs.any k.has
  | kind expected => k == expected
  | anyKind ks => ks.contains k

/-- The requirement in words, as error messages give it. -/
def describe : Requirement → String
  | capability c => s!"{c.article} {c}"
  | anyCapability cs => "any of: " ++ ", ".intercalate (cs.map Capability.describe)
  | kind k => s!"kind {k}"
  | anyKind ks => "one of kinds: " ++ ", ".intercalate (ks.map Kind.name)

instance : ToString Requirement where
  toString := describe

/-- Any element at all. -/
abbrev anyElement : Requirement := capability .identifiable

/-- Something a sequence flow can connect. -/
abbrev anyFlowNode : Requirement := capability .flowNode

/-- Something a message flow can connect. -/
abbrev anyInteractionNode : Requirement := capability .interactionNode

/-- A task, sub-process or call activity. -/
abbrev anyActivity : Requirement := capability .activity

/-- Something a call activity can call. -/
abbrev anyCallable : Requirement := capability .callable

/-- A conversation of any of the three kinds. -/
abbrev anyConversation : Requirement := capability .conversationNode

/-- Something a conversation link can end at. -/
abbrev conversationEnd : Requirement := anyCapability [.interactionNode, .conversationNode]

/-- Something an association can end at. -/
abbrev associable : Requirement := anyCapability [.flowElement, .artifact]

/-- A collaboration, global conversations included. -/
abbrev anyCollaboration : Requirement := anyKind [.collaboration, .globalConversation]

/-- Something that owns flow elements. -/
abbrev anyContainer : Requirement := capability .container

/-- An activity, gateway, event or sequence flow. -/
abbrev anyFlowElement : Requirement := capability .flowElement

end Requirement

/-- An identifier whose target has to meet `requires`. -/
structure Ref (requires : Requirement) where
  id : Id
deriving DecidableEq, Repr

/-- An identifier that has to lead to an element of kind `k`. -/
abbrev RefTo (k : Kind) : Type := Ref (.kind k)

/-- A reference as its holder lists it: the field, the identifier and what the target has to be. -/
structure Reference where
  field : String
  id : Id
  requires : Requirement
deriving DecidableEq, Repr

namespace Ref

variable {r : Requirement}

/-- The reference held in `field`. -/
def inField (ref : Ref r) (field : String) : Reference :=
  ⟨field, ref.id, r⟩

/-- The reference held in an optional field. -/
def optionInField (ref : Option (Ref r)) (field : String) : List Reference :=
  (ref.map (·.inField field)).toList

/-- The references held in a list field, in list order. -/
def listInField (refs : List (Ref r)) (field : String) : List Reference :=
  refs.map (·.inField field)

/-- The identifiers of a list of references. -/
def ids (refs : List (Ref r)) : List Id :=
  refs.map (·.id)

end Ref

end BpmnModel
