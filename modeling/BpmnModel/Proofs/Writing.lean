import BpmnModel.Document.Scope
import BpmnModel.Proofs.Fields
import BpmnModel.Proofs.Ownership
import Mathlib.Data.List.Forall2

/-!
# What documents cannot carry, and when writing succeeds

* `Element.Carries` — the element itself holds something that has no place in documents.
* `Element.Carried` — so does the element or something that it owns.
* `Writes` — a way of writing fails exactly when something is carried, naming what and where, and
  otherwise gives a good result. `Writes.bind` and `Writes.mapM` put ways of writing together.
* `Identity.writes`, `Writes.leaf` — elements that own nothing.
-/

namespace BpmnModel

/-! ## Features -/

/-- What an element may hold, besides extension values, that has no place in documents. -/
inductive Element.Holds : Element → Feature → Prop where
  | dataSpecification {e : FlowElement} {a : Activity} (activity : e.activity? = some a)
      (h : a.data ≠ none) : Holds (.flowElement e) .dataSpecification
  | resourceRoles {e : FlowElement} {a : Activity} (activity : e.activity? = some a)
      (h : a.resources ≠ []) : Holds (.flowElement e) .resourceRoles
  | processResources {p : Process} (h : p.resources ≠ []) :
      Holds (.root (.process p)) .resourceRoles
  | subscriptions {p : Process} (h : p.subscriptions ≠ []) :
      Holds (.root (.process p)) .correlationSubscriptions
  | collaborationKeys {c : Collaboration} (h : c.correlationKeys ≠ []) :
      Holds (.root (.collaboration c)) .correlationKeys
  | conversationKeys {n : ConversationNode} (h : n.base.correlationKeys ≠ []) :
      Holds (.conversationNode n) .correlationKeys
  | collaborationMappings {c : Collaboration}
      (h : c.participantAssociations ≠ [] ∨ c.messageFlowAssociations ≠ [] ∨
        c.conversationAssociations ≠ []) : Holds (.root (.collaboration c)) .associationMappings
  | callMappings {b : ConversationBase} {called : Option (Ref .anyCollaboration)}
      {associations : List ParticipantAssociation} (h : associations ≠ []) :
      Holds (.conversationNode (.callConversation b called associations)) .associationMappings

namespace Element

/-- The element itself holds something that has no place in documents. -/
def Carries (e : Element) (f : Feature) : Prop :=
  (f = .extensionValues ∧ e.identity.extensionValues ≠ []) ∨ e.Holds f

/-- The element `id` among the element and what it owns holds the feature. -/
def Carried (e : Element) (id : Id) (f : Feature) : Prop :=
  ∃ x ∈ e.subtree, x.id = id ∧ x.Carries f

theorem mem_subtree {e x : Element} :
    x ∈ e.subtree ↔ x = e ∨ ∃ c ∈ e.children, x ∈ c.subtree := by
  rw [subtree_eq, List.mem_cons, List.mem_flatMap]

theorem carried_iff {e : Element} {id : Id} {f : Feature} :
    e.Carried id f ↔ (id = e.id ∧ e.Carries f) ∨ ∃ c ∈ e.children, c.Carried id f := by
  constructor
  · rintro ⟨x, hx, rfl, hf⟩
    rcases mem_subtree.mp hx with rfl | ⟨c, hc, hx⟩
    · exact .inl ⟨rfl, hf⟩
    · exact .inr ⟨c, hc, x, hx, rfl, hf⟩
  · rintro (⟨rfl, hf⟩ | ⟨c, hc, x, hx, rfl, hf⟩)
    · exact ⟨e, mem_subtree.mpr (.inl rfl), rfl, hf⟩
    · exact ⟨x, mem_subtree.mpr (.inr ⟨c, hc, hx⟩), rfl, hf⟩

theorem mem_children_map {α : Type} {mk : α → Element} {xs : List α} {id : Id} {f : Feature} :
    (∃ c ∈ xs.map mk, c.Carried id f) ↔ ∃ x ∈ xs, (mk x).Carried id f := by
  simp

end Element

/-! ## Ways of writing -/

/-- A way of writing that fails exactly when something is carried, and says what and where. -/
def Writes {α : Type} (result : Except DocumentError α) (carried : Id → Feature → Prop)
    (good : α → Prop) : Prop :=
  (∃ a, result = .ok a ∧ good a ∧ ∀ id f, ¬ carried id f) ∨
    ∃ id f, result = .error (.unsupported id f) ∧ carried id f

namespace Writes

variable {α β : Type} {result : Except DocumentError α} {carried carried' : Id → Feature → Prop}
  {good : α → Prop} {good' : β → Prop}

theorem ok {a : α} (h : good a) : Writes (.ok a) (fun _ _ => False) good :=
  .inl ⟨a, rfl, h, fun _ _ h => h⟩

/-- More may be carried, unless nothing was. -/
theorem extend (h : Writes result carried good) (hsub : ∀ id f, carried id f → carried' id f)
    (hnone : ∀ a, good a → (∀ id f, ¬ carried id f) → ∀ id f, ¬ carried' id f) :
    Writes result carried' good := by
  rcases h with ⟨a, hr, ha, hno⟩ | ⟨id, f, hr, hf⟩
  · exact .inl ⟨a, hr, ha, hnone a ha hno⟩
  · exact .inr ⟨id, f, hr, hsub id f hf⟩

theorem congr (h : Writes result carried good) (hc : ∀ id f, carried id f ↔ carried' id f) :
    Writes result carried' good :=
  h.extend (fun id f => (hc id f).mp) fun _ _ hno id f hf => hno id f ((hc id f).mpr hf)

theorem imp {better : α → Prop} (h : Writes result carried good) (hg : ∀ a, good a → better a) :
    Writes result carried better := by
  rcases h with ⟨a, hr, ha, hno⟩ | herror
  · exact .inl ⟨a, hr, hg a ha, hno⟩
  · exact .inr herror

/-- One step after another fails if either does. -/
theorem bind {next : α → Except DocumentError β} (h : Writes result carried good)
    (hnext : ∀ a, good a → Writes (next a) carried' good') :
    Writes (result >>= next) (fun id f => carried id f ∨ carried' id f) good' := by
  rcases h with ⟨a, rfl, ha, hnone⟩ | ⟨id, f, rfl, hf⟩
  · rcases hnext a ha with ⟨b, hr, hb, hnone'⟩ | ⟨id, f, hr, hf⟩
    · exact .inl ⟨b, hr, hb, fun id f h => h.elim (hnone id f) (hnone' id f)⟩
    · exact .inr ⟨id, f, hr, .inr hf⟩
  · exact .inr ⟨id, f, rfl, .inl hf⟩

/-- A last step that cannot fail. -/
theorem map {next : α → β} (h : Writes result carried good) (hnext : ∀ a, good a → good' (next a)) :
    Writes (do let a ← result; return next a) carried good' :=
  (h.bind fun a ha => ok (hnext a ha)).congr fun _ _ => Iff.of_eq (or_false _)

/-- The things of a list are written one by one. -/
theorem mapM {γ : Type} {write : γ → Except DocumentError α} {carried : γ → Id → Feature → Prop}
    {good : γ → α → Prop} {xs : List γ} (h : ∀ x ∈ xs, Writes (write x) (carried x) (good x)) :
    Writes (xs.mapM write) (fun id f => ∃ x ∈ xs, carried x id f) (List.Forall₂ good xs) := by
  induction xs with
  | nil => exact (ok .nil).congr fun _ _ => by simp
  | cons x xs ih =>
    rw [List.mapM_cons]
    have hrest := ih fun y hy => h y (List.mem_cons_of_mem x hy)
    refine ((h x List.mem_cons_self).bind fun a ha => hrest.map fun as has => ?_).congr ?_
    · exact .cons ha has
    · intro id f
      simp

end Writes

/-! ## Lists of children -/

section Lists

variable {α : Type}

theorem forall_of_forall₂ {good : α → Node → Prop} {property : Node → Prop} {xs : List α}
    {ns : List Node} (h : List.Forall₂ good xs ns) (hp : ∀ x n, good x n → property n) :
    ∀ n ∈ ns, property n := by
  induction h with
  | nil => simp
  | cons hx _ ih =>
    intro n hn
    rcases List.mem_cons.mp hn with rfl | hn
    · exact hp _ _ hx
    · exact ih n hn

/-- Nodes of elements are content. -/
theorem Node.allContent_of_forall₂ {label : String} {good : α → Node → Prop} {xs : List α}
    {ns : List Node} (h : List.Forall₂ (fun x c => c.label = label ∧ good x c) xs ns)
    (hlabel : label ≠ "documentation") : AllContent ns :=
  forall_of_forall₂ h fun _ c hc => by simpa [isDocumentation, hc.1] using hlabel

/-- What was written one by one is read one by one. -/
theorem mapM_eq_ok_of_forall₂ {read : Node → Reading α} {xs : List α} {ns : List Node}
    (h : List.Forall₂ (fun x n => read n = .ok x) xs ns) : ns.mapM read = .ok xs := by
  induction h with
  | nil => rfl
  | cons hx _ ih => rw [List.mapM_cons, hx, ih]; rfl

end Lists

/-! ## Identities -/

/-- The node of an identity without extension values. -/
def Node.ofIdentity (label : String) (identity : Identity) : Node :=
  ((bare label).set? "id" (some (.text identity.id.text))).pushAll
    (identity.documentation.map Documentation.toNode)

namespace Documentation

@[simp]
theorem isDocumentation_toNode (d : Documentation) : d.toNode.isDocumentation = true := by
  simp [toNode, Node.isDocumentation]

@[simp]
theorem ofNode_toNode (d : Documentation) : ofNode d.toNode = .ok d := by
  simp [ofNode, toNode]

end Documentation

namespace Node

variable (label : String) (identity : Identity)

@[simp]
theorem label_ofIdentity : (ofIdentity label identity).label = label := by
  simp [ofIdentity]

@[simp]
theorem attribute?_ofIdentity (a : String) : (ofIdentity label identity).attribute? a =
    if "id" = a then some (.text identity.id.text) else none := by
  simp [ofIdentity]

@[simp]
theorem closed_ofIdentity {known : List String} (h : "id" ∈ known) :
    (ofIdentity label identity).Closed known := by
  simp [ofIdentity, h]

@[simp]
theorem children_ofIdentity :
    (ofIdentity label identity).children = identity.documentation.map Documentation.toNode := by
  simp [ofIdentity]

@[simp]
theorem content_ofIdentity : (ofIdentity label identity).content = [] := by
  simp [content]

@[simp]
theorem documentation_ofIdentity :
    (ofIdentity label identity).documentation = .ok identity.documentation := by
  rw [documentation, children_ofIdentity, List.filter_eq_self.mpr (by simp)]
  induction identity.documentation with
  | nil => rfl
  | cons d ds ih => rw [List.map_cons, List.mapM_cons, ih]; simp

end Node

namespace Identity

/-- The identity that a node carries is read back. -/
theorem ofNode_eq_ok {identity : Identity} (h : identity.extensionValues = []) {n : Node}
    (hn : n.documentation = .ok identity.documentation) : ofNode identity.id n = .ok identity := by
  obtain ⟨id, documentation, values⟩ := identity
  cases h
  rw [ofNode, hn]
  rfl

theorem writes (label : String) (identity : Identity) :
    Writes (identity.toNode label)
      (fun id f => id = identity.id ∧ f = .extensionValues ∧ identity.extensionValues ≠ [])
      (fun n => n = Node.ofIdentity label identity ∧ identity.extensionValues = []) := by
  rw [toNode]
  cases hv : identity.extensionValues with
  | nil => exact .inl ⟨_, rfl, ⟨rfl, rfl⟩, by simp⟩
  | cons v vs => exact .inr ⟨identity.id, .extensionValues, rfl, by simp⟩

end Identity

namespace Writes

variable {good : Node → Prop} {identity : Identity} {e : Element}

/-- An element that owns nothing and holds nothing but, maybe, extension values. -/
theorem leaf (label : String) (next : Node → Node) (hidentity : e.identity = identity)
    (hchildren : e.children = []) (hholds : ∀ f, ¬ e.Holds f)
    (hgood : identity.extensionValues = [] → good (next (Node.ofIdentity label identity))) :
    Writes (do let n ← identity.toNode label; return next n) e.Carried good := by
  subst hidentity
  refine ((e.identity.writes label).map fun n hn => ?_).congr fun id f => ?_
  · exact hn.1 ▸ hgood hn.2
  · rw [Element.carried_iff, hchildren, Element.Carries]
    simp [hholds, Element.id]

/-- An element whose children are the things of one list. -/
theorem branch {α : Type} {mk : α → Element} {xs : List α} {write : α → Except DocumentError Node}
    {goodChild : α → Node → Prop} (label : String) (next : Node → List Node → Node)
    (hidentity : e.identity = identity) (hchildren : e.children = xs.map mk)
    (hholds : ∀ f, ¬ e.Holds f) (hwrite : ∀ x ∈ xs, Writes (write x) (mk x).Carried (goodChild x))
    (hgood : identity.extensionValues = [] → ∀ ns, List.Forall₂ goodChild xs ns →
      good (next (Node.ofIdentity label identity) ns)) :
    Writes (do let n ← identity.toNode label; let ns ← xs.mapM write; return next n ns) e.Carried
      good := by
  subst hidentity
  refine ((e.identity.writes label).bind fun n hn => (mapM hwrite).map fun ns hns => ?_).congr ?_
  · exact hn.1 ▸ hgood hn.2 ns hns
  · intro id f
    rw [Element.carried_iff, hchildren, Element.mem_children_map, Element.Carries]
    simp [hholds, Element.id]

end Writes

end BpmnModel
