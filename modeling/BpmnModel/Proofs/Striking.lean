import BpmnModel.Proofs.Inventory

/-!
# Sequence flows struck from the nodes that list them

* `Entry.without` — what a removal does to an element that stays: the nodes of the container that a
  sequence flow leaves do not list it any more.
* `Unlisted` — references other than those by which a node lists a flow; all parts of a flow element
  but its `Edges` hold only such references.
* `FlowElement.references_detach`, `Placed.entry_detach` — striking a flow from a flow element takes
  out the references that list it, and nothing else.
-/

namespace BpmnModel

/-- The reference lists this flow at a node. -/
def Reference.lists (flow : Id) (r : Reference) : Bool :=
  (r.field = "incoming" ∨ r.field = "outgoing") ∧ r.id = flow

/-- What becomes of an element when another one is removed. Nothing, unless the other one is a
sequence flow and this one is a flow node of the same container, which then does not list the flow
any more. -/
def Entry.without (gone : Placed) (x : Entry) : Entry :=
  match gone.element with
  | .flowElement (.sequenceFlow f) =>
    if x.owner = gone.owner ∧ x.kind.has .flowNode = true then
      { x with references := x.references.filter fun r => !r.lists f.id }
    else x
  | _ => x

/-! ## References that list no flow -/

/-- None of the references lists a flow at a node. -/
def Unlisted (refs : List Reference) : Prop :=
  ∀ r ∈ refs, r.field ≠ "incoming" ∧ r.field ≠ "outgoing"

namespace Unlisted

variable {refs refs' : List Reference} {required : Requirement} {field : String}

@[simp]
theorem nil : Unlisted [] := List.forall_mem_nil _

@[simp]
theorem cons_iff {r : Reference} :
    Unlisted (r :: refs) ↔ (r.field ≠ "incoming" ∧ r.field ≠ "outgoing") ∧ Unlisted refs :=
  List.forall_mem_cons

@[simp]
theorem append_iff : Unlisted (refs ++ refs') ↔ Unlisted refs ∧ Unlisted refs' :=
  List.forall_mem_append

@[simp]
theorem flatMap_iff {α : Type} {xs : List α} {f : α → List Reference} :
    Unlisted (xs.flatMap f) ↔ ∀ x ∈ xs, Unlisted (f x) :=
  List.forall_mem_flatMap

theorem getD {α : Type} {f : α → List Reference} (h : ∀ x, Unlisted (f x)) (x : Option α) :
    Unlisted ((x.map f).getD []) := by
  cases x with
  | none => exact nil
  | some x => exact h x

@[simp]
theorem optionInField (h : field ≠ "incoming" ∧ field ≠ "outgoing") (ref : Option (Ref required)) :
    Unlisted (Ref.optionInField ref field) := by
  cases ref with
  | none => exact nil
  | some ref => exact List.forall_mem_singleton.mpr h

@[simp]
theorem listInField (h : field ≠ "incoming" ∧ field ≠ "outgoing") (refs : List (Ref required)) :
    Unlisted (Ref.listInField refs field) := by
  intro ref href
  obtain ⟨x, -, rfl⟩ := List.mem_map.mp href
  exact h

theorem filter_eq (h : Unlisted refs) (flow : Id) :
    (refs.filter fun r => !r.lists flow) = refs := by
  refine List.filter_eq_self.mpr fun r hr => ?_
  obtain ⟨hin, hout⟩ := h r hr
  simp [Reference.lists, hin, hout]

end Unlisted

@[simp]
theorem Ref.field_inField {required : Requirement} (ref : Ref required) (field : String) :
    (ref.inField field).field = field := rfl

@[simp]
theorem Identity.unlisted (i : Identity) : Unlisted i.references := by
  intro r hr
  obtain ⟨v, -, hv⟩ := List.mem_filterMap.mp hr
  cases hpayload : v.payload with
  | value text => simp [hpayload] at hv
  | reference target =>
    rw [hpayload] at hv
    cases hv
    simp

@[simp]
theorem FlowBase.unlisted (b : FlowBase) : Unlisted b.references := by
  simp [FlowBase.references]

@[simp]
theorem Expression.unlisted (e : Expression) : Unlisted e.references := by
  cases e <;> simp [Expression.references, FormalExpression.references]

@[simp]
theorem ResourceRole.unlisted (r : ResourceRole) : Unlisted r.references := by
  simp [ResourceRole.references, ParameterBinding.references, Unlisted.getD]

@[simp]
theorem TaskWork.unlisted (w : TaskWork) : Unlisted w.references := by
  cases w <;> simp [TaskWork.references]

@[simp]
theorem Loop.unlisted (l : Loop) : Unlisted l.references := by
  simp [Loop.references]

@[simp]
theorem DataSpecification.unlisted (d : DataSpecification) : Unlisted d.references := by
  simp [DataSpecification.references]

@[simp]
theorem EventPosition.unlisted (p : EventPosition) : Unlisted p.references := by
  cases p <;> simp [EventPosition.references]

@[simp]
theorem EventDefinition.unlisted (d : EventDefinition) : Unlisted d.references := by
  cases d <;> simp [EventDefinition.references]

@[simp]
theorem SequenceFlow.unlisted (f : SequenceFlow) : Unlisted f.references := by
  simp [SequenceFlow.references, Unlisted.getD]

/-! ## A flow struck from the nodes -/

theorem Edges.references_detach (e : Edges) (flow : Id) :
    (e.detach flow).references = e.references.filter fun r => !r.lists flow := by
  have side (refs : List (RefTo .sequenceFlow)) {field : String}
      (h : field = "incoming" ∨ field = "outgoing") :
      Ref.listInField (refs.filter (·.id ≠ flow)) field =
        (Ref.listInField refs field).filter fun r => !r.lists flow := by
    rw [Ref.listInField, Ref.listInField, List.filter_map]
    congr 2
    funext r
    rcases h with rfl | rfl <;> simp [Reference.lists, Ref.inField]
  rw [references, references, List.filter_append, detach, side _ (.inl rfl), side _ (.inr rfl)]

theorem Activity.references_detach (a : Activity) (flow : Id) :
    { a with edges := a.edges.detach flow }.references =
      a.references.filter fun r => !r.lists flow := by
  simp [Activity.references, Edges.references_detach, Unlisted.filter_eq, Unlisted.getD]

/-- Striking a flow from an element takes out the references that list it there. -/
theorem FlowElement.references_detach (flow : Id) (e : FlowElement) :
    (e.detach flow).references = e.references.filter fun r => !r.lists flow := by
  cases e with
  | gateway g =>
    simp [detach, mapEdges, references, Gateway.references, Edges.references_detach,
      Unlisted.filter_eq]
  | event e =>
    simp [detach, mapEdges, references, Event.references, Edges.references_detach,
      Unlisted.filter_eq]
  | sequenceFlow f => exact (f.unlisted.filter_eq flow).symm
  | _ =>
    simp [detach, mapEdges, references, Activity.references_detach, Unlisted.filter_eq]

namespace Entry

variable {gone : Placed} {x : Entry}

@[simp]
theorem id_without (gone : Placed) (x : Entry) : (x.without gone).id = x.id := by
  unfold without
  split
  · split <;> rfl
  · rfl

@[simp]
theorem kind_without (gone : Placed) (x : Entry) : (x.without gone).kind = x.kind := by
  unfold without
  split
  · split <;> rfl
  · rfl

/-- No reference comes in. -/
theorem references_without_subset (gone : Placed) (x : Entry) :
    (x.without gone).references ⊆ x.references := by
  unfold without
  split
  · split
    · exact List.filter_subset_self _
    · exact List.Subset.refl _
  · exact List.Subset.refl _

theorem without_eq_self (h : x.owner = gone.owner → x.kind.has .flowNode = false) :
    x.without gone = x := by
  unfold without
  split
  · refine if_neg ?_
    rintro ⟨howner, hkind⟩
    rw [h howner] at hkind
    cases hkind
  · rfl

end Entry

theorem FlowElement.kind_detach (flow : Id) (e : FlowElement) : (e.detach flow).kind = e.kind := by
  cases e <;> rfl

/-- The flow elements that list flows are the flow nodes. -/
theorem FlowElement.kind_has_flowNode (e : FlowElement) :
    e.kind.has .flowNode = e.edges?.isSome :=
  e.kind_has .flowNode

theorem Element.eq_flowElement_of_kind {e : Element} (h : e.kind.has .flowNode = true) :
    ∃ f, e = .flowElement f := by
  rw [e.kind_has] at h
  cases e with
  | flowElement f => exact ⟨f, rfl⟩
  | _ => cases h

/-- What becomes of the flow elements beside a sequence flow that is removed. -/
theorem Placed.entry_detach (owner : Option Id) (flow : SequenceFlow) (e : FlowElement) :
    Placed.entry ⟨owner, .flowElement (e.detach flow.id)⟩ =
      (Placed.entry ⟨owner, .flowElement e⟩).without ⟨owner, .flowElement (.sequenceFlow flow)⟩ := by
  cases hnode : e.kind.has .flowNode with
  | true =>
    rw [Entry.without]
    simp only [entry, Element.kind, hnode, and_self, if_true, Entry.mk.injEq, true_and]
    exact ⟨e.id_detach flow.id, e.kind_detach flow.id, e.references_detach flow.id⟩
  | false =>
    rw [Entry.without_eq_self fun _ => hnode]
    cases e with
    | sequenceFlow f => rfl
    | _ =>
      rw [FlowElement.kind_has_flowNode] at hnode
      cases hnode

end BpmnModel
