import BpmnModel.Proofs.RoundTrip

/-!
# What holds of every element by itself

The constructors of elements check bounds and exclusions, and so do the readers of documents, which
go through them.  Edits reach into elements that are there, but every container stays what its
assembly would make of it.

* `Element.Sound` — the bounds and exclusions, as facts about the values an element holds.
* `Element.Rebuilds` — the checks pass when the element is built from these values again, and give
  the same element.
* `Scope.elements_sound` — both hold of every element of the tree, whichever way it came in.
-/

namespace BpmnModel

/-! ## The checks, made again -/

namespace ResourceSelection

theorem resource?_or_assignment? (s : ResourceSelection) :
    s.resource? = none ∨ s.assignment? = none := by
  cases s with
  | unspecified => exact .inl rfl
  | named r => exact .inr rfl
  | assigned e => exact .inl rfl

end ResourceSelection

theorem ResourceRole.of_eq (r : ResourceRole) :
    of r.kind r.name r.selection.resource? r.bindings r.selection.assignment? = .ok r := by
  obtain ⟨kind, name, selection, bindings⟩ := r
  cases selection <;> rfl

theorem Quantity.ofInt_eq (q : Quantity) (element : Id) (field : String) :
    ofInt element field q.count.toNat = .ok q :=
  ofInt_of_count (countOfInt?_toNat q.count)
    (Int.ofNat_le.mpr (UInt32.le_iff_toNat_le.mp q.one_le)) element field

theorem Activity.withQuantities_eq (a : Activity) :
    a.withQuantities a.startQuantity.count.toNat a.completionQuantity.count.toNat = .ok a := by
  simp only [withQuantities, Quantity.ofInt_eq, ok_bind]
  rfl

namespace ConversationNode

/-- The sort of the node. -/
def sort : ConversationNode → ConversationSort
  | conversation .. => .conversation
  | subConversation _ _ nodes => .subConversation nodes
  | callConversation _ called associations => .callConversation called associations

theorem of_eq (n : ConversationNode) :
    of n.identity n.base.name n.base.participantRefs n.messageFlowRefs n.base.correlationKeys
      n.sort = .ok n := by
  rw [of, dif_pos n.base.two_le_participants]
  cases n <;> rfl

theorem messageFlowRefs_of_call {n : ConversationNode} (h : n.kind = .callConversation) :
    n.messageFlowRefs = [] := by
  cases n with
  | callConversation b called associations => rfl
  | _ => cases h

end ConversationNode

/-! ## Elements -/

namespace Element

/-- The resource roles of an activity or process. -/
def resources : Element → List ResourceRole
  | root (.process p) => p.resources
  | flowElement e => (e.activity?.map Activity.resources).getD []
  | _ => []

/-- The bounds and exclusions that hold of an element by itself. -/
structure Sound (e : Element) : Prop where
  /-- An activity takes and gives at least one token. -/
  quantities : ∀ f a, e = flowElement f → f.activity? = some a →
    1 ≤ a.startQuantity.count ∧ 1 ≤ a.completionQuantity.count
  /-- A maximum of participants is at least one and at least the minimum. -/
  multiplicity : ∀ p, e = participant p → ∀ m ∈ p.multiplicity, ∀ most ∈ m.maximum,
    1 ≤ most ∧ m.minimum ≤ most
  /-- A role does not both name a resource and describe one. -/
  roles : ∀ r ∈ e.resources, r.selection.resource? = none ∨ r.selection.assignment? = none
  /-- An interface offers an operation. -/
  operations : ∀ i, e = root (.interface i) → i.operations.items ≠ []
  /-- A conversation node names two participants. -/
  participants : ∀ n, e = conversationNode n → 2 ≤ n.base.participantRefs.length
  /-- A call has no message flows of its own. -/
  call : ∀ n, e = conversationNode n → n.kind = .callConversation → n.messageFlowRefs = []
  /-- A relationship has a source and a target. -/
  relationship : ∀ r, e = .relationship r → r.sources ≠ [] ∧ r.targets ≠ []
  /-- A correlation property is carried by a message. -/
  retrievals : ∀ p, e = root (.correlationProperty p) → p.retrievals ≠ []
  /-- Only an end event terminates. -/
  terminate : ∀ v, e = flowElement (.event v) → .terminate ∈ v.definitions →
    v.position.kind = .endEvent
  /-- Flow elements of one container have distinct identifiers. -/
  elements : ∀ c, e.container? = some c → (c.elements.map FlowElement.id).Nodup

/-- The checks that are made when an element is built pass for what it holds. -/
structure Rebuilds (e : Element) : Prop where
  quantities : ∀ f a, e = flowElement f → f.activity? = some a →
    a.withQuantities a.startQuantity.count.toNat a.completionQuantity.count.toNat = .ok a
  multiplicity : ∀ p, e = participant p → ∀ m ∈ p.multiplicity,
    Multiplicity.ofInts m.minimum.toNat (m.maximum.map fun c => (c.toNat : Int)) = .ok m
  roles : ∀ r ∈ e.resources, ResourceRole.of r.kind r.name r.selection.resource? r.bindings
    r.selection.assignment? = .ok r
  interface : ∀ i, e = root (.interface i) →
    Interface.of i.identity i.name i.operations.items i.implementationRef = .ok i
  conversation : ∀ n, e = conversationNode n → ConversationNode.of n.identity n.base.name
    n.base.participantRefs n.messageFlowRefs n.base.correlationKeys n.sort = .ok n
  relationship : ∀ r, e = .relationship r →
    Relationship.of r.identity r.type r.direction r.sources r.targets = .ok r
  correlationProperty : ∀ p, e = root (.correlationProperty p) →
    CorrelationProperty.of p.identity p.name p.type p.retrievals = .ok p
  event : ∀ v, e = flowElement (.event v) →
    Event.of v.base v.edges v.position v.definitions = .ok v
  container : ∀ c, e.container? = some c → Container.assemble c.elements c.laneSets = .ok c

variable {e : Element}

/-- What an element holds makes it sound, as long as its contents do not clash. -/
theorem sound (h : ∀ c, e.container? = some c → c.Wired) : e.Sound where
  quantities _ a _ _ := ⟨a.startQuantity.one_le, a.completionQuantity.one_le⟩
  multiplicity _ _ m _ most hmost :=
    ⟨m.one_le_of_maximum most hmost, m.minimum_le_of_maximum most hmost⟩
  roles r _ := r.selection.resource?_or_assignment?
  operations i _ := i.operations_ne_nil
  participants n _ := n.base.two_le_participants
  call _ _ := ConversationNode.messageFlowRefs_of_call
  relationship r _ := ⟨r.sources_ne_nil, r.targets_ne_nil⟩
  retrievals p _ := p.retrievals_ne_nil
  terminate v _ hterminate := congrArg EventPosition.kind (v.finish_of_terminate hterminate)
  elements c hc := (h c hc).nodup

/-- It can be built from it, as long as its contents are wired. -/
theorem rebuilds (h : ∀ c, e.container? = some c → c.Wired) : e.Rebuilds where
  quantities _ a _ _ := a.withQuantities_eq
  multiplicity _ _ m _ := m.ofInts_eq
  roles r _ := r.of_eq
  interface i _ := i.of_eq
  conversation n _ := n.of_eq
  relationship r _ := r.of_eq
  correlationProperty p _ := p.of_eq
  event v _ := v.of_eq
  container c hc := Container.assemble_of_wired (h c hc)

end Element

namespace Scope

variable {s : Scope}

/-- **Local invariants hold of every element that exists**, at every depth, whether edits made the
scope or a document was read, and after all later edits. -/
theorem elements_sound (origin : Reachable s ∨ ∃ d, ofDocument d = .ok s) :
    Reachable s ∧ ∀ p ∈ s.placed, p.element.Sound ∧ p.element.Rebuilds := by
  have h : Reachable s := reachable_of_origin origin
  refine ⟨h, fun p hp => ?_⟩
  have hwired (c : Container) (hc : p.element.container? = some c) : c.Wired := h.wired hp hc
  exact ⟨Element.sound hwired, Element.rebuilds hwired⟩

/-- The end event of the process terminates it. -/
theorem elements_sound_terminating :
    let terminate : Event := ⟨⟨.bare ⟨"e"⟩, none, []⟩, .none, .finish, [.terminate], fun _ => rfl⟩
    let s := (Change.addFlowElement ⟨"p"⟩ (.event terminate)).after
      ((Change.addRoot (.process (.bare ⟨"p"⟩))).after (fresh ⟨"Defs"⟩ "urn:t"))
    s.placed.map (·.element.kind) = [.process, .endEvent] ∧
      ∀ p ∈ s.placed, p.element.Sound ∧ p.element.Rebuilds := by
  intro terminate s
  have hs : Reachable s := .after _ (.event _) nofun (.after _ ⟨[], [], nofun, rfl⟩ nofun (.fresh _ _))
  exact ⟨by decide +kernel, (elements_sound (.inl hs)).2⟩

end Scope

end BpmnModel
