import BpmnModel.Proofs.Mentions
import Mathlib.Algebra.BigOperators.Group.Multiset.Basic
import Mathlib.Tactic.Abel

/-!
# Every reference that is stored

* `Pointer` — what a typed reference stores: an identifier and what has to be found there.
* One function `pointers` for each type of the model that can store references, from the types of its
  fields alone. Its patterns name every field, so that none is forgotten: those left out cannot hold
  a reference.
* `pointersOf_references` in the namespaces of these types — an element lists what it stores, without
  what its children store.
* `Scope.listed_placed` — along the ownership tree everything is listed but what is stored in the
  header.
* `Scope.pointers_resolve` — what a silent check of references says about what is stored.
-/

namespace BpmnModel

/-- What a typed reference stores. -/
structure Pointer where
  id : Id
  requires : Requirement
deriving DecidableEq

/-! ## What is stored -/

/-- What is stored in the items of a list. -/
def inList {α : Type} (pointers : α → Multiset Pointer) (xs : List α) : Multiset Pointer :=
  (xs.map pointers).sum

/-- What is stored in an optional field. -/
def inOption {α : Type} (pointers : α → Multiset Pointer) (x : Option α) : Multiset Pointer :=
  (x.map pointers).getD 0

def Ref.pointers {r : Requirement} (ref : Ref r) : Multiset Pointer := {⟨ref.id, r⟩}

def Payload.pointers : Payload → Multiset Pointer
  | .value _ => 0
  | .reference target => target.pointers

def ExtensionValue.pointers : ExtensionValue → Multiset Pointer
  | ⟨_, payload⟩ => payload.pointers

def Identity.pointers : Identity → Multiset Pointer
  | ⟨_, _, extensionValues⟩ => inList ExtensionValue.pointers extensionValues

def FormalExpression.pointers : FormalExpression → Multiset Pointer
  | ⟨_, _, type⟩ => inOption Ref.pointers type

def Expression.pointers : Expression → Multiset Pointer
  | .informal _ => 0
  | .formal expression => expression.pointers

def ParameterBinding.pointers : ParameterBinding → Multiset Pointer
  | ⟨parameterRef, expression⟩ => parameterRef.pointers + expression.pointers

def ResourceSelection.pointers : ResourceSelection → Multiset Pointer
  | .unspecified => 0
  | .named resource => resource.pointers
  | .assigned expression => expression.pointers

def ResourceRole.pointers : ResourceRole → Multiset Pointer
  | ⟨_, _, selection, bindings⟩ => selection.pointers + inList ParameterBinding.pointers bindings

/-! Artifacts, flow nodes and sequence flows -/

def Association.pointers : Association → Multiset Pointer
  | ⟨identity, source, target, _⟩ => identity.pointers + source.pointers + target.pointers

def Group.pointers : Group → Multiset Pointer
  | ⟨identity, categoryValueRef⟩ => identity.pointers + inOption Ref.pointers categoryValueRef

def TextNote.pointers : TextNote → Multiset Pointer
  | ⟨identity, _, _⟩ => identity.pointers

def Artifact.pointers : Artifact → Multiset Pointer
  | .association a => a.pointers
  | .group g => g.pointers
  | .textNote t => t.pointers

def FlowBase.pointers : FlowBase → Multiset Pointer
  | ⟨identity, _, categoryValueRefs⟩ => identity.pointers + inList Ref.pointers categoryValueRefs

def SequenceFlow.pointers : SequenceFlow → Multiset Pointer
  | ⟨base, source, target, condition, _⟩ =>
    base.pointers + source.pointers + target.pointers + inOption Expression.pointers condition

def Edges.pointers : Edges → Multiset Pointer
  | ⟨incoming, outgoing⟩ => inList Ref.pointers incoming + inList Ref.pointers outgoing

def Gateway.pointers : Gateway → Multiset Pointer
  | ⟨base, edges, _, _, defaultFlow⟩ =>
    base.pointers + edges.pointers + inOption Ref.pointers defaultFlow

def EventPosition.pointers : EventPosition → Multiset Pointer
  | .start _ | .intermediateCatch | .intermediateThrow | .finish => 0
  | .boundary attachedTo _ => attachedTo.pointers

def EventDefinition.pointers : EventDefinition → Multiset Pointer
  | .message m o => inOption Ref.pointers m + inOption Ref.pointers o
  | .error e => inOption Ref.pointers e
  | .escalation e => inOption Ref.pointers e
  | .terminate => 0

def Event.pointers : Event → Multiset Pointer
  | ⟨base, edges, position, definitions, _⟩ =>
    base.pointers + edges.pointers + position.pointers + inList EventDefinition.pointers definitions

def TaskWork.pointers : TaskWork → Multiset Pointer
  | .service _ o => inOption Ref.pointers o
  | .send _ m o | .receive _ _ m o => inOption Ref.pointers m + inOption Ref.pointers o
  | .plain | .businessRule _ | .script _ _ | .user _ _ | .manual => 0

def Loop.pointers : Loop → Multiset Pointer
  | .standard _ _ condition => inOption Expression.pointers condition
  | .multiInstance _ cardinality completion =>
    inOption Expression.pointers cardinality + inOption Expression.pointers completion

def DataParameter.pointers : DataParameter → Multiset Pointer
  | ⟨_, itemSubjectRef, _⟩ => inOption Ref.pointers itemSubjectRef

def DataSpecification.pointers : DataSpecification → Multiset Pointer
  | ⟨inputs, outputs⟩ =>
    inList DataParameter.pointers inputs + inList DataParameter.pointers outputs

def Activity.pointers : Activity → Multiset Pointer
  | ⟨base, edges, _, loop, resources, defaultFlow, data, boundaryEventRefs, _, _⟩ =>
    base.pointers + edges.pointers + inOption Loop.pointers loop +
      inList ResourceRole.pointers resources + inOption Ref.pointers defaultFlow +
      inOption DataSpecification.pointers data + inList Ref.pointers boundaryEventRefs

def Lane.pointers : Lane → Multiset Pointer
  | ⟨identity, _, flowNodeRefs⟩ => identity.pointers + inList Ref.pointers flowNodeRefs

def LaneSet.pointers : LaneSet → Multiset Pointer
  | ⟨identity, _, lanes⟩ => identity.pointers + inList Lane.pointers lanes

mutual

def FlowElement.pointers : FlowElement → Multiset Pointer
  | .task a w => a.pointers + w.pointers
  | .callActivity a called => a.pointers + inOption Ref.pointers called
  | .subProcess a _ es ls as =>
    a.pointers + FlowElement.allPointers es + inList LaneSet.pointers ls +
      inList Artifact.pointers as
  | .gateway g => g.pointers
  | .event e => e.pointers
  | .sequenceFlow f => f.pointers

def FlowElement.allPointers : List FlowElement → Multiset Pointer
  | [] => 0
  | e :: es => FlowElement.pointers e + FlowElement.allPointers es

end

def Container.pointers : Container → Multiset Pointer
  | ⟨elements, laneSets⟩ => FlowElement.allPointers elements + inList LaneSet.pointers laneSets

/-! Processes and what correlates them -/

def CorrelationBinding.pointers : CorrelationBinding → Multiset Pointer
  | ⟨dataPath, propertyRef⟩ => dataPath.pointers + propertyRef.pointers

def CorrelationSubscription.pointers : CorrelationSubscription → Multiset Pointer
  | ⟨keyRef, bindings⟩ => keyRef.pointers + inList CorrelationBinding.pointers bindings

def Process.pointers : Process → Multiset Pointer
  | ⟨identity, _, _, _, _, container, artifacts, resources, subscriptions, supportedInterfaceRefs,
      supports, definitionalCollaborationRef⟩ =>
    identity.pointers + container.pointers + inList Artifact.pointers artifacts +
      inList ResourceRole.pointers resources +
      inList CorrelationSubscription.pointers subscriptions +
      inList Ref.pointers supportedInterfaceRefs + inList Ref.pointers supports +
      inOption Ref.pointers definitionalCollaborationRef

def RetrievalExpression.pointers : RetrievalExpression → Multiset Pointer
  | ⟨messagePath, messageRef⟩ => messagePath.pointers + messageRef.pointers

def CorrelationProperty.pointers : CorrelationProperty → Multiset Pointer
  | ⟨identity, _, type, retrievals, _⟩ =>
    identity.pointers + inOption Ref.pointers type + inList RetrievalExpression.pointers retrievals

def CorrelationKey.pointers : CorrelationKey → Multiset Pointer
  | ⟨identity, _, propertyRefs⟩ => identity.pointers + inList Ref.pointers propertyRefs

/-! Collaborations -/

def Participant.pointers : Participant → Multiset Pointer
  | ⟨identity, _, processRef, interfaceRefs, endPointRefs, _⟩ =>
    identity.pointers + inOption Ref.pointers processRef + inList Ref.pointers interfaceRefs +
      inList Ref.pointers endPointRefs

def MessageFlow.pointers : MessageFlow → Multiset Pointer
  | ⟨identity, _, source, target, messageRef⟩ =>
    identity.pointers + source.pointers + target.pointers + inOption Ref.pointers messageRef

def ParticipantAssociation.pointers : ParticipantAssociation → Multiset Pointer
  | ⟨inner, outer⟩ => inner.pointers + outer.pointers

def MessageFlowAssociation.pointers : MessageFlowAssociation → Multiset Pointer
  | ⟨inner, outer⟩ => inner.pointers + outer.pointers

def ConversationAssociation.pointers : ConversationAssociation → Multiset Pointer
  | ⟨inner, outer⟩ => inOption Ref.pointers inner + inList Ref.pointers outer

def ConversationBase.pointers : ConversationBase → Multiset Pointer
  | ⟨identity, _, participantRefs, correlationKeys, _⟩ =>
    identity.pointers + inList Ref.pointers participantRefs +
      inList CorrelationKey.pointers correlationKeys

mutual

def ConversationNode.pointers : ConversationNode → Multiset Pointer
  | .conversation base messageFlowRefs => base.pointers + inList Ref.pointers messageFlowRefs
  | .subConversation base messageFlowRefs nodes =>
    base.pointers + inList Ref.pointers messageFlowRefs + ConversationNode.allPointers nodes
  | .callConversation base called associations =>
    base.pointers + inOption Ref.pointers called +
      inList ParticipantAssociation.pointers associations

def ConversationNode.allPointers : List ConversationNode → Multiset Pointer
  | [] => 0
  | n :: ns => ConversationNode.pointers n + ConversationNode.allPointers ns

end

def ConversationLink.pointers : ConversationLink → Multiset Pointer
  | ⟨identity, _, source, target⟩ => identity.pointers + source.pointers + target.pointers

def Collaboration.pointers : Collaboration → Multiset Pointer
  | ⟨identity, _, _, _, participants, messageFlows, conversations, links, artifacts, correlationKeys,
      participantAssociations, messageFlowAssociations, conversationAssociations⟩ =>
    identity.pointers + inList Participant.pointers participants.items +
      inList MessageFlow.pointers messageFlows.items +
      ConversationNode.allPointers conversations.items +
      inList ConversationLink.pointers links.items + inList Artifact.pointers artifacts +
      inList CorrelationKey.pointers correlationKeys +
      inList ParticipantAssociation.pointers participantAssociations +
      inList MessageFlowAssociation.pointers messageFlowAssociations +
      inList ConversationAssociation.pointers conversationAssociations

/-! The other elements of a scope -/

def Operation.pointers : Operation → Multiset Pointer
  | ⟨identity, _, inMessageRef, outMessageRef, errorRefs, _⟩ =>
    identity.pointers + inMessageRef.pointers + inOption Ref.pointers outMessageRef +
      inList Ref.pointers errorRefs

def Interface.pointers : Interface → Multiset Pointer
  | ⟨identity, _, operations, _, _⟩ =>
    identity.pointers + inList Operation.pointers operations.items

def EndPoint.pointers : EndPoint → Multiset Pointer
  | ⟨identity⟩ => identity.pointers

def Message.pointers : Message → Multiset Pointer
  | ⟨identity, _, itemRef⟩ => identity.pointers + inOption Ref.pointers itemRef

def ItemDefinition.pointers : ItemDefinition → Multiset Pointer
  | ⟨identity, _, _, _⟩ => identity.pointers

def ErrorDefinition.pointers : ErrorDefinition → Multiset Pointer
  | ⟨identity, _, _, structureRef⟩ => identity.pointers + inOption Ref.pointers structureRef

def Escalation.pointers : Escalation → Multiset Pointer
  | ⟨identity, _, _, structureRef⟩ => identity.pointers + inOption Ref.pointers structureRef

def ResourceParameter.pointers : ResourceParameter → Multiset Pointer
  | ⟨identity, _, type, _⟩ => identity.pointers + inOption Ref.pointers type

def Resource.pointers : Resource → Multiset Pointer
  | ⟨identity, _, parameters⟩ => identity.pointers + inList ResourceParameter.pointers parameters

def CategoryValue.pointers : CategoryValue → Multiset Pointer
  | ⟨identity, _⟩ => identity.pointers

def Category.pointers : Category → Multiset Pointer
  | ⟨identity, _, values⟩ => identity.pointers + inList CategoryValue.pointers values

def Relationship.pointers : Relationship → Multiset Pointer
  | ⟨identity, _, _, sources, targets, _, _⟩ =>
    identity.pointers + inList Ref.pointers sources + inList Ref.pointers targets

def Root.pointers : Root → Multiset Pointer
  | .process p => p.pointers
  | .collaboration c => c.pointers
  | .interface i => i.pointers
  | .endPoint e => e.pointers
  | .message m => m.pointers
  | .itemDefinition d => d.pointers
  | .error e => e.pointers
  | .escalation e => e.pointers
  | .resource r => r.pointers
  | .category c => c.pointers
  | .correlationProperty p => p.pointers

def Header.pointers : Header → Multiset Pointer
  | ⟨identity, _, _, _, _, _, _⟩ => identity.pointers

/-- What is stored in a scope itself. What an import is bound to is a scope of its own, and
extensions declare values but have none. -/
def Scope.pointers : Scope → Multiset Pointer
  | ⟨header, roots, relationships, _, _, _⟩ =>
    header.pointers + inList Root.pointers roots + inList Relationship.pointers relationships

/-! ## What is listed -/

/-- What is stored in listed references. -/
def pointersOf (refs : List Reference) : Multiset Pointer :=
  inList (fun ref => {⟨ref.id, ref.requires⟩}) refs

theorem mem_pointersOf {pt : Pointer} {refs : List Reference} :
    pt ∈ pointersOf refs ↔ ∃ ref ∈ refs, (⟨ref.id, ref.requires⟩ : Pointer) = pt := by
  induction refs with
  | nil => simp [pointersOf, inList]
  | cons ref refs ih => simp_all [pointersOf, inList, eq_comm]

section Simp

variable {α β : Type} {f : α → Multiset Pointer} {r : Requirement}

@[simp]
theorem inOption_none : inOption f none = 0 := rfl

@[simp]
theorem inOption_some (x : α) : inOption f (some x) = f x := rfl

@[simp]
theorem inList_nil : inList f [] = 0 := rfl

@[simp]
theorem inList_cons (x : α) (xs : List α) : inList f (x :: xs) = f x + inList f xs := by
  simp [inList]

@[simp]
theorem inList_append (xs ys : List α) : inList f (xs ++ ys) = inList f xs + inList f ys := by
  simp [inList]

@[simp]
theorem inList_toList (x : Option α) : inList f x.toList = inOption f x := by
  cases x <;> simp

@[simp]
theorem pointersOf_nil : pointersOf [] = 0 := rfl

@[simp]
theorem pointersOf_append (refs refs' : List Reference) :
    pointersOf (refs ++ refs') = pointersOf refs + pointersOf refs' :=
  inList_append _ _

@[simp]
theorem pointersOf_cons_inField (ref : Ref r) (field : String) (refs : List Reference) :
    pointersOf (ref.inField field :: refs) = ref.pointers + pointersOf refs :=
  inList_cons _ _

@[simp]
theorem pointersOf_optionInField (ref : Option (Ref r)) (field : String) :
    pointersOf (Ref.optionInField ref field) = inOption Ref.pointers ref := by
  cases ref with
  | none => rfl
  | some ref => exact inList_cons _ _

@[simp]
theorem pointersOf_listInField (refs : List (Ref r)) (field : String) :
    pointersOf (Ref.listInField refs field) = inList Ref.pointers refs := by
  rw [pointersOf, Ref.listInField, inList, inList, List.map_map]
  rfl

@[simp]
theorem pointersOf_flatMap (g : α → List Reference) (xs : List α) :
    pointersOf (xs.flatMap g) = inList (fun x => pointersOf (g x)) xs := by
  induction xs with
  | nil => rfl
  | cons x xs ih => simp [ih]

@[simp]
theorem pointersOf_getD (g : α → List Reference) (x : Option α) :
    pointersOf ((x.map g).getD []) = inOption (fun x => pointersOf (g x)) x := by
  cases x <;> rfl

end Simp

@[simp]
theorem Identity.pointersOf_references (i : Identity) : pointersOf i.references = i.pointers := by
  obtain ⟨id, documentation, values⟩ := i
  rw [references, pointers]
  induction values with
  | nil => rfl
  | cons v vs ih =>
    obtain ⟨name, payload⟩ := v
    cases payload <;> simpa [ExtensionValue.pointers, Payload.pointers] using ih

@[simp]
theorem FormalExpression.pointersOf_references (e : FormalExpression) :
    pointersOf e.references = e.pointers := by
  cases e
  simp [references, pointers]

@[simp]
theorem Expression.pointersOf_references (e : Expression) :
    pointersOf e.references = e.pointers := by
  cases e <;> simp [references, pointers]

@[simp]
theorem ParameterBinding.pointersOf_references (b : ParameterBinding) :
    pointersOf b.references = b.pointers := by
  cases b
  simp [references, pointers]

@[simp]
theorem ResourceRole.pointersOf_references (r : ResourceRole) :
    pointersOf r.references = r.pointers := by
  obtain ⟨kind, name, selection, bindings⟩ := r
  cases selection <;>
    simp [references, pointers, ResourceSelection.pointers, ResourceSelection.resource?,
      ResourceSelection.assignment?, add_comm]

@[simp]
theorem Artifact.pointersOf_references (a : Artifact) : pointersOf a.references = a.pointers := by
  cases a with
  | association a =>
    cases a
    simp [references, pointers, identity, Association.pointers, add_assoc]
  | group g =>
    cases g
    simp [references, pointers, identity, Group.pointers]
  | textNote t =>
    cases t
    simp [references, pointers, identity, TextNote.pointers]

@[simp]
theorem FlowBase.pointersOf_references (b : FlowBase) : pointersOf b.references = b.pointers := by
  cases b
  simp [references, pointers]

@[simp]
theorem SequenceFlow.pointersOf_references (f : SequenceFlow) :
    pointersOf f.references = f.pointers := by
  cases f
  simp [references, pointers, add_assoc]

@[simp]
theorem Edges.pointersOf_references (e : Edges) : pointersOf e.references = e.pointers := by
  cases e
  simp [references, pointers]

@[simp]
theorem Gateway.pointersOf_references (g : Gateway) : pointersOf g.references = g.pointers := by
  cases g
  simp [references, pointers, add_assoc]

@[simp]
theorem EventPosition.pointersOf_references (p : EventPosition) :
    pointersOf p.references = p.pointers := by
  cases p <;> simp [references, pointers]

@[simp]
theorem EventDefinition.pointersOf_references (d : EventDefinition) :
    pointersOf d.references = d.pointers := by
  cases d <;> simp [references, pointers]

@[simp]
theorem Event.pointersOf_references (e : Event) : pointersOf e.references = e.pointers := by
  cases e
  simp [references, pointers, add_assoc]

@[simp]
theorem TaskWork.pointersOf_references (w : TaskWork) : pointersOf w.references = w.pointers := by
  cases w <;> simp [references, pointers]

@[simp]
theorem Loop.pointersOf_references (l : Loop) : pointersOf l.references = l.pointers := by
  cases l <;> simp [references, expressions, pointers]

@[simp]
theorem DataSpecification.pointersOf_references (d : DataSpecification) :
    pointersOf d.references = d.pointers := by
  cases d
  simp [references, pointers]
  rfl

@[simp]
theorem Activity.pointersOf_references (a : Activity) : pointersOf a.references = a.pointers := by
  cases a
  simp [references, pointers]
  abel

@[simp]
theorem Lane.pointersOf_references (l : Lane) : pointersOf l.references = l.pointers := by
  cases l
  simp [references, pointers]

@[simp]
theorem CorrelationSubscription.pointersOf_references (s : CorrelationSubscription) :
    pointersOf s.references = s.pointers := by
  have binding (b : CorrelationBinding) : pointersOf b.references = b.pointers := by
    cases b
    simp [CorrelationBinding.references, CorrelationBinding.pointers, add_comm]
  cases s
  simp [references, pointers, binding]

@[simp]
theorem CorrelationProperty.pointersOf_references (p : CorrelationProperty) :
    pointersOf p.references = p.pointers := by
  have retrieval (e : RetrievalExpression) : pointersOf e.references = e.pointers := by
    cases e
    simp [RetrievalExpression.references, RetrievalExpression.pointers, add_comm]
  cases p
  simp [references, pointers, retrieval, add_assoc]

@[simp]
theorem CorrelationKey.pointersOf_references (k : CorrelationKey) :
    pointersOf k.references = k.pointers := by
  cases k
  simp [references, pointers]

@[simp]
theorem Participant.pointersOf_references (p : Participant) :
    pointersOf p.references = p.pointers := by
  cases p
  simp [references, pointers, add_assoc]

@[simp]
theorem MessageFlow.pointersOf_references (f : MessageFlow) :
    pointersOf f.references = f.pointers := by
  cases f
  simp [references, pointers, add_assoc]

@[simp]
theorem ParticipantAssociation.pointersOf_references (a : ParticipantAssociation) :
    pointersOf a.references = a.pointers := by
  cases a
  simp [references, pointers]

@[simp]
theorem MessageFlowAssociation.pointersOf_references (a : MessageFlowAssociation) :
    pointersOf a.references = a.pointers := by
  cases a
  simp [references, pointers]

@[simp]
theorem ConversationAssociation.pointersOf_references (a : ConversationAssociation) :
    pointersOf a.references = a.pointers := by
  cases a
  simp [references, pointers]

@[simp]
theorem ConversationLink.pointersOf_references (l : ConversationLink) :
    pointersOf l.references = l.pointers := by
  cases l
  simp [references, pointers, add_assoc]

@[simp]
theorem Operation.pointersOf_references (o : Operation) : pointersOf o.references = o.pointers := by
  cases o
  simp [references, pointers, add_assoc]

@[simp]
theorem Message.pointersOf_references (m : Message) : pointersOf m.references = m.pointers := by
  cases m
  simp [references, pointers]

@[simp]
theorem ItemDefinition.pointersOf_references (d : ItemDefinition) :
    pointersOf d.references = d.pointers := by
  cases d
  simp [references, pointers]

@[simp]
theorem ErrorDefinition.pointersOf_references (e : ErrorDefinition) :
    pointersOf e.references = e.pointers := by
  cases e
  simp [references, pointers]

@[simp]
theorem Escalation.pointersOf_references (e : Escalation) :
    pointersOf e.references = e.pointers := by
  cases e
  simp [references, pointers]

@[simp]
theorem ResourceParameter.pointersOf_references (p : ResourceParameter) :
    pointersOf p.references = p.pointers := by
  cases p
  simp [references, pointers]

@[simp]
theorem Relationship.pointersOf_references (r : Relationship) :
    pointersOf r.references = r.pointers := by
  cases r
  simp [references, pointers, add_assoc]

/-! ## Along the ownership tree -/

/-- What is stored in the references listed by the elements of a listing. -/
def listed (ps : List Placed) : Multiset Pointer := pointersOf (ps.flatMap (·.element.references))

@[simp]
theorem listed_nil : listed [] = 0 := rfl

@[simp]
theorem listed_cons (p : Placed) (ps : List Placed) :
    listed (p :: ps) = pointersOf p.element.references + listed ps := by
  rw [listed, List.flatMap_cons, pointersOf_append, listed]

@[simp]
theorem listed_append (ps qs : List Placed) : listed (ps ++ qs) = listed ps + listed qs := by
  rw [listed, List.flatMap_append, pointersOf_append, listed, listed]

theorem listed_flatMap {α : Type} {f : α → List Placed} {g : α → Multiset Pointer}
    (h : ∀ x, listed (f x) = g x) (xs : List α) : listed (xs.flatMap f) = inList g xs := by
  induction xs with
  | nil => rfl
  | cons x xs ih => simp [h, ih]

/-- Elements that own nothing. -/
theorem listed_map {α : Type} {mk : α → Placed} {g : α → Multiset Pointer}
    (h : ∀ x, pointersOf (mk x).element.references = g x) (xs : List α) :
    listed (xs.map mk) = inList g xs := by
  induction xs with
  | nil => rfl
  | cons x xs ih => simp [h, ih]

theorem LaneSet.listed_placed (s : LaneSet) (owner : Option Id) :
    listed (s.placed owner) = s.pointers := by
  cases s
  rw [placed, listed_cons, listed_map Lane.pointersOf_references]
  exact congrArg (· + _) (Identity.pointersOf_references _)

namespace FlowElement

theorem listed_artifacts (as : List Artifact) (owner : Option Id) :
    listed (as.map fun x => ⟨owner, .artifact x⟩) = inList Artifact.pointers as :=
  listed_map Artifact.pointersOf_references as

mutual

theorem listed_placed : ∀ (e : FlowElement) (owner : Option Id),
    listed (e.placed owner) = e.pointers
  | subProcess a t es ls as, owner => by
    rw [placed, listed_cons, listed_append, listed_append, listed_placedAll es,
      listed_flatMap (LaneSet.listed_placed · _), listed_artifacts, pointers]
    simp [Element.references, references]
    abel
  | task a w, owner => by simp [placed, Element.references, references, pointers]
  | callActivity a c, owner => by simp [placed, Element.references, references, pointers]
  | gateway g, owner => by simp [placed, Element.references, references, pointers]
  | event e, owner => by simp [placed, Element.references, references, pointers]
  | sequenceFlow f, owner => by simp [placed, Element.references, references, pointers]

theorem listed_placedAll : ∀ (es : List FlowElement) (owner : Id),
    listed (placedAll owner es) = allPointers es
  | [], _ => rfl
  | e :: es, owner => by
    rw [placedAll, listed_append, listed_placed e, listed_placedAll es, allPointers]

end

end FlowElement

namespace ConversationNode

theorem listed_correlationKeys (ks : List CorrelationKey) (owner : Option Id) :
    listed (ks.map fun k => ⟨owner, .correlationKey k⟩) = inList CorrelationKey.pointers ks :=
  listed_map CorrelationKey.pointersOf_references ks

mutual

theorem listed_placed : ∀ (n : ConversationNode) (owner : Option Id),
    listed (n.placed owner) = n.pointers
  | conversation b fs, owner => by
    rw [placed, listed_cons, listed_correlationKeys, pointers]
    cases b
    simp [Element.references, references, messageFlowRefs, identity, base,
      ConversationBase.pointers]
    abel
  | subConversation b fs ns, owner => by
    rw [placed, listed_cons, listed_append, listed_placedAll ns, listed_correlationKeys, pointers]
    cases b
    simp [Element.references, references, messageFlowRefs, identity, base,
      ConversationBase.pointers]
    abel
  | callConversation b c as, owner => by
    rw [placed, listed_cons, listed_correlationKeys, pointers]
    cases b
    simp [Element.references, references, messageFlowRefs, identity, base,
      ConversationBase.pointers]
    abel

theorem listed_placedAll : ∀ (ns : List ConversationNode) (owner : Id),
    listed (placedAll owner ns) = allPointers ns
  | [], _ => rfl
  | n :: ns, owner => by
    rw [placedAll, listed_append, listed_placed n, listed_placedAll ns, allPointers]

end

end ConversationNode

theorem Root.listed_placed (r : Root) (owner : Option Id) :
    listed (r.placed owner) = r.pointers := by
  cases r with
  | process p =>
    simp only [placed, listed_cons, listed_append, Function.comp_def]
    rw [FlowElement.listed_placedAll, listed_flatMap (LaneSet.listed_placed · _),
      FlowElement.listed_artifacts]
    cases p
    simp [Element.references, references, Process.references, pointers, Process.pointers,
      Container.pointers]
    abel
  | collaboration c =>
    simp only [placed, listed_cons, listed_append, Function.comp_def]
    rw [listed_map Participant.pointersOf_references, listed_map MessageFlow.pointersOf_references,
      ConversationNode.listed_placedAll, listed_map ConversationLink.pointersOf_references,
      FlowElement.listed_artifacts, ConversationNode.listed_correlationKeys]
    cases c
    simp [Element.references, references, Collaboration.references, pointers,
      Collaboration.pointers]
    abel
  | interface i =>
    simp only [placed, listed_cons, Function.comp_def]
    rw [listed_map Operation.pointersOf_references]
    cases i
    simp [Element.references, references, pointers, Interface.pointers]
  | resource x =>
    simp only [placed, listed_cons, Function.comp_def]
    rw [listed_map ResourceParameter.pointersOf_references]
    cases x
    simp [Element.references, references, pointers, Resource.pointers]
  | category x =>
    simp only [placed, listed_cons, Function.comp_def]
    have value (v : CategoryValue) : pointersOf v.identity.references = v.pointers :=
      v.identity.pointersOf_references
    rw [listed_map value]
    cases x
    simp [Element.references, references, pointers, Category.pointers]
  | endPoint e => simp [placed, Element.references, references, pointers, EndPoint.pointers]
  | _ => simp [placed, Element.references, references, pointers]

namespace Scope

variable {s : Scope} {o : ValidationOptions}

/-- **Along the ownership tree everything is listed that is stored outside of the header.** -/
theorem listed_placed (s : Scope) :
    listed s.placed =
      inList Root.pointers s.roots + inList Relationship.pointers s.relationships := by
  have root (r : Root) : listed ((Element.root r).placed none) = r.pointers := r.listed_placed none
  have relationship (r : Relationship) :
      listed ((Element.relationship r).placed none) = r.pointers := by
    simp [Element.placed, Element.references]
  rw [placed, topLevel, List.flatMap_append, List.flatMap_map, List.flatMap_map, listed_append,
    listed_flatMap root, listed_flatMap relationship]

theorem pointers_eq (s : Scope) : s.pointers = s.header.pointers + listed s.placed := by
  rw [listed_placed, ← add_assoc]
  cases s
  rfl

theorem resolve_eq_ok_iff_of_reachable (h : Reachable s) {id : Id} {r : Requirement} {e : Element} :
    s.resolve id r = .ok e ↔ s.lookup id = some e ∧ e.id = id ∧ r.isMetBy e.kind = true := by
  rw [resolve_eq_ok_iff]
  refine and_congr_right fun hlookup => ?_
  obtain ⟨t, hfound⟩ := (lookup_eq_some_iff h).mp hlookup
  exact (and_iff_right hfound.id).symm

/-- **A silent check of references vouches for everything that is stored, but for the header**: each
typed reference that is stored in a root element or a relationship, at any depth and in any part of
it, resolves to an element of that identifier which meets the requirement. What the identity of the
scope itself stores is not looked at. -/
theorem pointers_resolve (h : Reachable s) (ho : o.isEnabled .referenceResolution = true) :
    (s.validate o).byRule .referenceResolution = [] ↔
      ∀ pt ∈ s.pointers - s.header.pointers, ∃ e, s.resolve pt.id pt.requires = .ok e ∧
        e.id = pt.id ∧ pt.requires.isMetBy e.kind = true := by
  have hsub : s.pointers - s.header.pointers = listed s.placed := by
    rw [pointers_eq, add_tsub_cancel_left]
  rw [byRule_eq_nil_iff s ho, hsub]
  constructor
  · intro hall pt hpt
    obtain ⟨ref, href, rfl⟩ := mem_pointersOf.mp hpt
    obtain ⟨p, hp, href⟩ := List.mem_flatMap.mp href
    obtain ⟨e, he⟩ := hall p hp ref href
    exact ⟨e, he, ((resolve_eq_ok_iff_of_reachable h).mp he).2⟩
  · intro hall p hp ref href
    obtain ⟨e, he, -⟩ := hall ⟨ref.id, ref.requires⟩
      (mem_pointersOf.mpr ⟨ref, List.mem_flatMap.mpr ⟨p, hp, href⟩, rfl⟩)
    exact ⟨e, he⟩

/-- The definition that a message names resolves. -/
theorem pointers_resolve_message :
    let s := (Change.addRoot (.message ⟨.bare ⟨"m"⟩, none, some ⟨⟨"i"⟩⟩⟩)).after <|
      (Change.addRoot (.itemDefinition ⟨.bare ⟨"i"⟩, default, false, none⟩)).after
        (fresh ⟨"Defs"⟩ "urn:t")
    s.pointers - s.header.pointers = {⟨⟨"i"⟩, .kind .itemDefinition⟩} ∧
      ∃ e, s.resolve ⟨"i"⟩ (.kind .itemDefinition) = .ok e ∧ e.id = ⟨"i"⟩ := by
  intro s
  have hs : Reachable s := .after _ trivial nofun <| .after _ trivial nofun (.fresh _ _)
  have hpointers : s.pointers - s.header.pointers = {⟨⟨"i"⟩, .kind .itemDefinition⟩} := by
    decide +kernel
  have hquiet : (s.validate default).byRule .referenceResolution = [] := by decide +kernel
  refine ⟨hpointers, ?_⟩
  obtain ⟨e, he, hid, -⟩ := (pointers_resolve hs (o := default) rfl).mp hquiet
    ⟨⟨"i"⟩, .kind .itemDefinition⟩ (by rw [hpointers]; exact Multiset.mem_singleton_self _)
  exact ⟨e, he, hid⟩

/-- A scope whose own identity refers to an element that is nowhere. -/
def astray : Scope :=
  (Change.describe [] [⟨"owner", .reference ⟨⟨"nowhere"⟩⟩⟩]).after (fresh ⟨"Defs"⟩ "urn:t")

/-- **A reference of the scope's own identity is stored, does not resolve and is not reported.** -/
theorem pointers_unresolved_astray :
    Reachable astray ∧ (astray.validate default).isClean = true ∧
      ∃ pt ∈ astray.pointers, astray.resolve pt.id pt.requires =
        .error (.danglingReference pt.id pt.requires) := by
  refine ⟨.after _ trivial nofun (.fresh _ _), by decide +kernel,
    ⟨⟨"nowhere"⟩, .anyElement⟩, by decide +kernel, rfl⟩

end Scope

end BpmnModel
