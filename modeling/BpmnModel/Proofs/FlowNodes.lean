import BpmnModel.Proofs.Definitions

/-!
# Sequence flows, gateways and events, written and read back

The parts that several kinds share are written one after another into one node.  For each part
there is a lemma that reads it back and a frame lemma that says which settings do not matter to it.

* `FlowBase.ofNode_node`, `Edges.ofNode_onNode` — the shared parts.
* `EventPosition.read_onNode` — what the label of an event tells.
* `SequenceFlow.ofNode_node`, `Gateway.ofNode_node`, `Event.ofNode_node` — the flow elements.
-/

namespace BpmnModel

variable {n : Node} {a : String} {v : Option Value} {cs : List Node}

attribute [simp] FlowBase.fields Edges.fields Activity.fields

/-! ## Shared parts -/

namespace FlowBase

/-- The node that `toNode` makes if nothing is in the way. -/
def node (label : String) (b : FlowBase) : Node :=
  ((Node.ofIdentity label b.identity).setText? "name" b.name).setRefs "categoryValueRefs"
    b.categoryValueRefs

theorem toNode_writes (label : String) (b : FlowBase) :
    Writes (b.toNode label)
      (fun id f => id = b.id ∧ f = .extensionValues ∧ b.identity.extensionValues ≠ [])
      (fun n => n = b.node label ∧ b.identity.extensionValues = []) :=
  (b.identity.writes label).map fun _ hn => ⟨hn.1 ▸ rfl, hn.2⟩

@[simp]
theorem label_node (label : String) (b : FlowBase) : (b.node label).label = label := by
  simp [node]

theorem attribute?_node (label : String) (b : FlowBase) (h : a ∉ fields) :
    (b.node label).attribute? a = none := by
  simp only [fields, List.mem_cons, List.not_mem_nil, or_false, not_or] at h
  simp [node, Ne.symm h.1, Ne.symm h.2.1, Ne.symm h.2.2]

@[simp]
theorem closed_node (label : String) (b : FlowBase) {known : List String} (hid : "id" ∈ known)
    (hname : "name" ∈ known) (hrefs : "categoryValueRefs" ∈ known) :
    (b.node label).Closed known := by
  simp [node, hid, hname, hrefs]

@[simp]
theorem content_node (label : String) (b : FlowBase) : (b.node label).content = [] := by
  simp [node]

@[simp]
theorem ofNode_set? (h : a ∉ fields) : ofNode (n.set? a v) = ofNode n := by
  simp only [fields, List.mem_cons, List.not_mem_nil, or_false, not_or] at h
  simp [ofNode, Identity.ofNode, h]

@[simp]
theorem ofNode_pushAll (h : Node.AllContent cs) : ofNode (n.pushAll cs) = ofNode n := by
  simp [ofNode, Identity.ofNode, h]

theorem ofNode_node {b : FlowBase} (h : b.identity.extensionValues = []) (label : String) :
    ofNode (b.node label) = .ok b := by
  simp [ofNode, node, Identity.ofNode_eq_ok h]

theorem identifies {b : FlowBase} (h : ofNode n = .ok b) : n.Identifies b.identity := by
  simp only [ofNode, bind_eq_ok, pure_eq_ok, Except.ok.injEq] at h
  obtain ⟨id, hid, identity, hi, -, -, -, -, rfl⟩ := h
  exact .of_read hid hi

end FlowBase

namespace Edges

@[simp]
theorem ofNode_pushAll : ofNode (n.pushAll cs) = ofNode n := rfl

theorem ofNode_onNode (e : Edges) (hin : n.attribute? "incoming" = Option.none)
    (hout : n.attribute? "outgoing" = Option.none) : ofNode (e.onNode n) = .ok e := by
  simp [ofNode, onNode, hin, hout]

end Edges

/-! ## Sequence flows, gateways and events -/

namespace SequenceFlow

theorem ofNode_node {f : SequenceFlow} (h : f.base.identity.extensionValues = []) :
    ofNode (((((f.base.node "sequenceFlow").setRef "sourceRef" f.source).setRef "targetRef"
      f.target).set? "isImmediate" (f.isImmediate.map .flag)).pushAll
        (Expression.toNodes "conditionExpression" f.condition)) = .ok f := by
  have hdoc : Node.AllContent (Expression.toNodes "conditionExpression" f.condition) := by
    cases f.condition <;> simp [Expression.toNodes, Node.isDocumentation]
  have hcondition (m : Node) : conditionOfNodes m
      (Expression.toNodes "conditionExpression" f.condition) none = .ok f.condition := by
    cases f.condition <;> simp [Expression.toNodes, conditionOfNodes]
  simp [ofNode, hdoc, hcondition, FlowBase.ofNode_node h, FlowBase.attribute?_node]

/-- The condition of a flow was read from a child. -/
theorem exists_of_conditionOfNodes {parent : Node} {ns : List Node}
    {found condition : Option Expression}
    (h : conditionOfNodes parent ns found = .ok condition) :
    condition = found ∨ ∃ c ∈ ns, ∃ e, condition = some e ∧ Expression.ofNode c = .ok e := by
  induction ns generalizing found with
  | nil =>
    cases h
    exact .inl rfl
  | cons c ns ih =>
    rw [conditionOfNodes] at h
    split at h
    · obtain ⟨e, he, h⟩ := bind_eq_ok.mp h
      rcases ih h with heq | ⟨d, hd, e', heq, hread⟩
      · exact .inr ⟨c, List.mem_cons_self, e, heq, he⟩
      · exact .inr ⟨d, List.mem_cons_of_mem c hd, e', heq, hread⟩
    · cases h

end SequenceFlow

namespace Gateway

theorem ofNode_node {g : Gateway} (h : g.base.identity.extensionValues = []) :
    ofNode g.type (((g.edges.onNode (g.base.node g.type.label)).setWord "gatewayDirection"
      g.direction).setRef? "default" g.defaultFlow) = .ok g := by
  simp [ofNode, Edges.ofNode, Edges.onNode, FlowBase.ofNode_node h, FlowBase.attribute?_node]

end Gateway

namespace EventDefinition

@[simp]
theorem ofNode_toNode (parent : String) (d : EventDefinition) : ofNode parent d.toNode = .ok d := by
  cases d with
  | message m o => simp [ofNode, toNode]
  | error e => simp [ofNode, toNode]
  | escalation e => simp [ofNode, toNode]
  | terminate => rfl

/-- A definition fits where it was read. -/
theorem fits_toNode {parent : String} {d : EventDefinition} (h : ofNode parent n = .ok d) {k : Nat}
    (hn : n.Fits k) : d.toNode.Fits k := by
  cases k with
  | succ j => cases d <;> simp [toNode]
  | zero =>
    have hnone {r : Requirement} (a : String) :
        n.ref? a = .ok (Option.none : Option (Ref r)) := by
      simp [hn.attribute?_eq_none]
    unfold ofNode at h
    simp only [hnone, ok_bind, pure_eq_ok] at h
    split at h
    · simp only [bind_eq_ok, Except.ok.injEq] at h
      obtain ⟨-, -, -, -, rfl⟩ := h
      exact ⟨rfl, rfl⟩
    · simp only [bind_eq_ok, Except.ok.injEq] at h
      obtain ⟨-, -, -, -, rfl⟩ := h
      exact ⟨rfl, rfl⟩
    · simp only [bind_eq_ok, Except.ok.injEq] at h
      obtain ⟨-, -, -, -, rfl⟩ := h
      exact ⟨rfl, rfl⟩
    · simp only [bind_eq_ok, Except.ok.injEq] at h
      obtain ⟨-, -, -, -, rfl⟩ := h
      exact ⟨rfl, rfl⟩
    · cases h

end EventDefinition

namespace Node.DiffersIn

variable {fields : List String} {m : Node}

theorem flowBase (h : n.DiffersIn fields m) (hfields : ∀ a ∈ FlowBase.fields, a ∉ fields) :
    FlowBase.ofNode m = FlowBase.ofNode n := by
  simp only [FlowBase.fields, List.forall_mem_cons] at hfields
  simp [FlowBase.ofNode, Identity.ofNode, h.label, h.documentation, h.attribute?, hfields]

theorem edges (h : n.DiffersIn fields m) (hfields : ∀ a ∈ Edges.fields, a ∉ fields) :
    Edges.ofNode m = Edges.ofNode n := by
  simp only [Edges.fields, List.forall_mem_cons] at hfields
  simp [Edges.ofNode, h.label, h.attribute?, hfields]

end Node.DiffersIn

theorem Edges.differsIn (e : Edges) : n.DiffersIn fields (e.onNode n) := by
  simpa [onNode] using ((Node.DiffersIn.refl _ n).set? (by simp)).set? (by simp)

namespace EventPosition

/-- What the label of a position tells is how its fields are read. -/
theorem read_onNode (p : EventPosition) :
    ∃ fields read, form? p.label = some (fields, read) ∧
      (∀ a ∈ FlowBase.fields ++ Edges.fields, a ∉ fields) ∧
      ∀ n : Node, n.DiffersIn fields (p.onNode n) ∧
        ∀ cs, (∀ a ∈ fields, n.attribute? a = none) → read ((p.onNode n).pushAll cs) = .ok p := by
  cases p with
  | start i =>
    refine ⟨_, _, rfl, by simp, fun n => ⟨?_, fun cs hn => ?_⟩⟩
    · simpa [onNode] using (Node.DiffersIn.refl _ n).set? (by simp)
    · simp at hn
      simp [onNode, hn]
  | intermediateCatch => exact ⟨_, _, rfl, by simp, fun n => ⟨.refl _ n, fun _ _ => rfl⟩⟩
  | intermediateThrow => exact ⟨_, _, rfl, by simp, fun n => ⟨.refl _ n, fun _ _ => rfl⟩⟩
  | finish => exact ⟨_, _, rfl, by simp, fun n => ⟨.refl _ n, fun _ _ => rfl⟩⟩
  | boundary attachedTo cancelActivity =>
    refine ⟨_, _, rfl, by simp, fun n => ⟨?_, fun cs hn => ?_⟩⟩
    · simpa [onNode] using ((Node.DiffersIn.refl _ n).set? (by simp)).set? (by simp)
    · simp at hn
      simp [onNode, hn]

end EventPosition

namespace Event

theorem of_eq (e : Event) : of e.base e.edges e.position e.definitions = .ok e := by
  rw [of, dif_pos e.finish_of_terminate]

theorem ofNode_node {e : Event} (h : e.base.identity.extensionValues = []) :
    ∃ form, EventPosition.form? e.position.label = some form ∧
      ofNode form ((e.position.onNode (e.edges.onNode (e.base.node e.position.label))).pushAll
        (e.definitions.map EventDefinition.toNode)) = .ok e := by
  obtain ⟨fields, read, hform, hfields, hposition⟩ := e.position.read_onNode
  obtain ⟨hdiffers, hread⟩ := hposition (e.edges.onNode (e.base.node e.position.label))
  have hdoc : Node.AllContent (e.definitions.map EventDefinition.toNode) := by
    intro c hc
    obtain ⟨d, -, rfl⟩ := List.mem_map.mp hc
    cases d <;> simp [EventDefinition.toNode, Node.isDocumentation]
  have hdefinitions (parent : String) : (e.definitions.map EventDefinition.toNode).mapM
      (EventDefinition.ofNode parent) = .ok e.definitions :=
    mapM_eq_ok_of_forall₂ (by rw [List.forall₂_map_right_iff, List.forall₂_same]; simp)
  have hnone : ∀ a ∈ fields,
      (e.edges.onNode (e.base.node e.position.label)).attribute? a = none := by
    intro a ha
    rw [e.edges.differsIn.attribute? a fun h => hfields a (List.mem_append_right _ h) ha]
    exact FlowBase.attribute?_node _ _ fun h => hfields a (List.mem_append_left _ h) ha
  have hbase : FlowBase.ofNode (e.position.onNode (e.edges.onNode
      (e.base.node e.position.label))) = .ok e.base := by
    rw [hdiffers.flowBase fun a ha => hfields a (List.mem_append_left _ ha),
      e.edges.differsIn.flowBase (by simp), FlowBase.ofNode_node h]
  have hedges : Edges.ofNode (e.position.onNode (e.edges.onNode
      (e.base.node e.position.label))) = .ok e.edges := by
    rw [hdiffers.edges fun a ha => hfields a (List.mem_append_right _ ha)]
    exact Edges.ofNode_onNode _ (FlowBase.attribute?_node _ _ (by simp))
      (FlowBase.attribute?_node _ _ (by simp))
  have hclosed : (e.position.onNode (e.edges.onNode (e.base.node e.position.label))).Closed
      (FlowBase.fields ++ Edges.fields ++ fields) :=
    hdiffers.closed _ (by simp +contextual) (e.edges.differsIn.closed _ (by simp) (by simp))
  have hcontent :
      (e.position.onNode (e.edges.onNode (e.base.node e.position.label))).content = [] := by
    rw [hdiffers.content, e.edges.differsIn.content, FlowBase.content_node]
  refine ⟨_, hform, ?_⟩
  simp only [ofNode, FlowBase.ofNode_pushAll hdoc, hbase, Edges.ofNode_pushAll, hedges,
    hread _ hnone, ok_bind, Node.finish_of_closed, Node.closed_pushAll, hclosed,
    Node.content_pushAll _ hdoc, hcontent, List.nil_append, hdefinitions, of_eq, checked_ok]

end Event

end BpmnModel
