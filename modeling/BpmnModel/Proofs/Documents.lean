import BpmnModel.Proofs.Collaborations
import BpmnModel.Proofs.Processes

/-!
# Root elements, headers and scopes, written

* `Root.writes`, `Root.of_read` — what holds of every kind of root element.
* `Scope.Carries` — the scope or one of its elements holds what has no place in documents.
* `Scope.writes_reread` — writing a scope fails exactly then.
-/

namespace BpmnModel

variable {n : Node}

/-! ## Imports -/

namespace ImportDeclaration

@[simp]
theorem label_toNode (d : ImportDeclaration) : d.toNode.label = "import" := by
  simp [toNode]

@[simp]
theorem ofNode_toNode (d : ImportDeclaration) : ofNode d.toNode = .ok d := by
  obtain ⟨type, target, location⟩ := d
  have hparse : ImportType.parse type.shortName = .ok type := by
    cases type <;> rfl
  simp [ofNode, toNode, hparse]

/-- A declaration fits where it was read. -/
theorem fits_toNode {d : ImportDeclaration} (h : ofNode n = .ok d) {k : Nat} (hn : n.Fits k) :
    d.toNode.Fits k := by
  obtain ⟨type, htype, -⟩ := bind_eq_ok.mp h
  obtain ⟨j, rfl⟩ := hn.exists_of_text htype
  simp [toNode]

end ImportDeclaration

/-! ## Root elements -/

namespace Root

/-- The node is that of a root element and is read as it. -/
def ReadFrom (r : Root) (n : Node) : Prop :=
  (n.label ≠ "documentation" ∧ n.label ≠ "import" ∧ n.label ≠ "relationship") ∧
    ∀ parent, ofNode parent n = .ok r

/-- A root element whose reader is told by one label. -/
theorem writes_of_label {α : Type} {mk : α → Root} {x : α} {label : String}
    {result : Except DocumentError Node} {carried : Id → Feature → Prop}
    {read : Node → Reading α}
    (h : Writes result carried (fun n => n.label = label ∧ read n = .ok x))
    (hlabel : label ≠ "documentation" ∧ label ≠ "import" ∧ label ≠ "relationship")
    (hread : ∀ parent n, n.label = label → ofNode parent n = mk <$> read n) :
    Writes result carried (mk x).ReadFrom := by
  refine h.imp fun n hn => ⟨hn.1 ▸ hlabel, ?_⟩
  intro parent
  rw [hread parent n hn.1, hn.2, map_ok]

/-- Without flow elements nothing is taken for something else. -/
theorem writes_of_flowless {r : Root} (hr : (Element.root r).Flowless) :
    Writes r.toNode (Element.root r).Carried r.ReadFrom := by
  cases r with
  | process p => exact hr.elim
  | collaboration c =>
    apply writes_of_label c.writes (by split <;> decide)
    intro parent n h
    cases hg : c.isGlobal with
    | true => simp [ofNode, h, hg]
    | false => simp [ofNode, h, hg]
  | interface i => exact writes_of_label i.writes (by decide) fun _ _ h => by simp [ofNode, h]
  | endPoint e => exact writes_of_label e.writes (by decide) fun _ _ h => by simp [ofNode, h]
  | message m => exact writes_of_label m.writes (by decide) fun _ _ h => by simp [ofNode, h]
  | itemDefinition d => exact writes_of_label d.writes (by decide) fun _ _ h => by simp [ofNode, h]
  | error e => exact writes_of_label e.writes (by decide) fun _ _ h => by simp [ofNode, h]
  | escalation e => exact writes_of_label e.writes (by decide) fun _ _ h => by simp [ofNode, h]
  | resource r => exact writes_of_label r.writes (by decide) fun _ _ h => by simp [ofNode, h]
  | category c => exact writes_of_label c.writes (by decide) fun _ _ h => by simp [ofNode, h]
  | correlationProperty p =>
    exact writes_of_label p.writes (by decide) fun _ _ h => by simp [ofNode, h]

theorem writes {r : Root} (ha : r.Assembled) :
    Writes r.toNode (Element.root r).Carried r.reread.ReadFrom := by
  cases r with
  | process p =>
    have hp : Writes p.toNode (Element.root (.process p)).Carried p.reread.ReadFrom :=
      Process.writes ha
    show Writes p.toNode _ (process p.reread).ReadFrom
    exact writes_of_label hp (by decide) fun _ _ h => by simp [ofNode, h]
  | _ => exact writes_of_flowless trivial

/-- **A root element that was read is written again, and could be built.** -/
theorem of_read {parent : String} {r : Root} (h : ofNode parent n = .ok r) :
    Rewrites 3 r.toNode n ∧ r.Assembled ∧ ∀ x ∈ (Element.root r).subtree, x.Proper := by
  have h03 : 0 ≤ 3 := by decide
  unfold ofNode at h
  split at h
  · obtain ⟨p, hp, rfl⟩ := map_eq_ok.mp h
    obtain ⟨hrewrites, hrest⟩ := Process.of_read hp
    exact ⟨hrewrites.mono h03, hrest⟩
  · obtain ⟨c, hc, rfl⟩ := map_eq_ok.mp h
    exact ⟨Collaboration.rewrites hc, trivial, Element.Flowless.proper trivial⟩
  · obtain ⟨c, hc, rfl⟩ := map_eq_ok.mp h
    exact ⟨Collaboration.rewrites hc, trivial, Element.Flowless.proper trivial⟩
  · obtain ⟨x, hx, rfl⟩ := map_eq_ok.mp h
    exact ⟨(Interface.rewrites hx).mono h03, trivial, Element.Flowless.proper trivial⟩
  · obtain ⟨x, hx, rfl⟩ := map_eq_ok.mp h
    exact ⟨(EndPoint.rewrites hx).mono h03, trivial, Element.Flowless.proper trivial⟩
  · obtain ⟨x, hx, rfl⟩ := map_eq_ok.mp h
    exact ⟨(Message.rewrites hx).mono h03, trivial, Element.Flowless.proper trivial⟩
  · obtain ⟨x, hx, rfl⟩ := map_eq_ok.mp h
    exact ⟨(ItemDefinition.rewrites hx).mono h03, trivial, Element.Flowless.proper trivial⟩
  · obtain ⟨x, hx, rfl⟩ := map_eq_ok.mp h
    exact ⟨(ErrorDefinition.rewrites hx).mono h03, trivial, Element.Flowless.proper trivial⟩
  · obtain ⟨x, hx, rfl⟩ := map_eq_ok.mp h
    exact ⟨(Escalation.rewrites hx).mono h03, trivial, Element.Flowless.proper trivial⟩
  · obtain ⟨x, hx, rfl⟩ := map_eq_ok.mp h
    exact ⟨(Resource.rewrites hx).mono h03, trivial, Element.Flowless.proper trivial⟩
  · obtain ⟨x, hx, rfl⟩ := map_eq_ok.mp h
    exact ⟨(Category.rewrites hx).mono h03, trivial, Element.Flowless.proper trivial⟩
  · obtain ⟨x, hx, rfl⟩ := map_eq_ok.mp h
    exact ⟨(CorrelationProperty.rewrites hx).mono h03, trivial, Element.Flowless.proper trivial⟩
  · cases h

end Root

/-! ## Headers -/

namespace Header

/-- The node that `toNode` makes if nothing is in the way. -/
def node (h : Header) : Node :=
  let n := ((Node.ofIdentity label h.identity).setText? "name" h.name).setText "targetNamespace"
    h.targetNamespace
  let n := if h.expressionLanguage = xpath then n
    else n.setText "expressionLanguage" h.expressionLanguage
  let n := if h.typeLanguage = xmlSchema then n else n.setText "typeLanguage" h.typeLanguage
  (n.setText? "exporter" h.exporter).setText? "exporterVersion" h.exporterVersion

theorem toNode_writes (h : Header) :
    Writes h.toNode
      (fun id f => id = h.identity.id ∧ f = .extensionValues ∧ h.identity.extensionValues ≠ [])
      (fun n => n = h.node ∧ h.identity.extensionValues = []) :=
  (h.identity.writes label).map fun _ hn => ⟨hn.1 ▸ rfl, hn.2⟩

@[simp]
theorem label_node (h : Header) : h.node.label = label := by
  simp [node]

@[simp]
theorem content_node (h : Header) : h.node.content = [] := by
  simp [node]

theorem ofNode_node {h : Header} (hv : h.identity.extensionValues = []) {cs : List Node}
    (hcs : Node.AllContent cs) : ofNode (h.node.pushAll cs) = .ok h := by
  simp [ofNode, node, hcs, Identity.ofNode_eq_ok hv]

theorem identifies {h : Header} (hof : ofNode n = .ok h) : n.Identifies h.identity := by
  simp only [ofNode, bind_eq_ok, pure_eq_ok, Except.ok.injEq] at hof
  obtain ⟨id, hid, target, -, identity, hi, -, -, -, -, -, -, -, -, -, -, -, -, rfl⟩ := hof
  exact .of_read hid hi

end Header

/-! ## Writing a scope -/

namespace Scope

variable {s t : Scope}

/-- The scope itself or one of its elements holds the feature. -/
def Carries (s : Scope) (id : Id) (f : Feature) : Prop :=
  (id = s.id ∧ ((f = .extensions ∧ s.extensions ≠ []) ∨
    (f = .extensionValues ∧ s.header.identity.extensionValues ≠ []))) ∨
    ∃ p ∈ s.placed, p.id = id ∧ p.element.Carries f

/-- No task of the scope is implemented by a technology with a reserved name. -/
def Proper (s : Scope) : Prop := ∀ p ∈ s.placed, p.element.Proper

/-- The document holds what the scope holds, in order. -/
structure WrittenAs (s : Scope) (d : Document) : Prop where
  extensions : s.extensions = []
  extensionValues : s.header.identity.extensionValues = []
  root : ∃ rns lns, d.root =
      s.header.node.pushAll (s.imports.map (·.declaration.toNode) ++ rns ++ lns) ∧
    List.Forall₂ Root.ReadFrom s.roots rns ∧
    List.Forall₂ (fun r n => n.label = "relationship" ∧ Relationship.ofNode n = .ok r)
      s.relationships lns

theorem exists_placed_iff {P : Element → Prop} :
    (∃ p ∈ s.placed, P p.element) ↔ ∃ e ∈ s.topLevel, ∃ x ∈ e.subtree, P x := by
  constructor
  · rintro ⟨p, hp, h⟩
    obtain ⟨e, he, hpe⟩ := mem_placed.mp hp
    exact ⟨e, he, p.element, List.mem_map_of_mem hpe, h⟩
  · rintro ⟨e, he, x, hx, h⟩
    obtain ⟨p, hp, rfl⟩ := List.mem_map.mp hx
    exact ⟨p, mem_placed.mpr ⟨e, he, hp⟩, h⟩

theorem exists_carried_iff {id : Id} {f : Feature} :
    (∃ p ∈ s.placed, p.id = id ∧ p.element.Carries f) ↔
      (∃ r ∈ s.roots, (Element.root r).Carried id f) ∨
        ∃ r ∈ s.relationships, (Element.relationship r).Carried id f := by
  refine (exists_placed_iff (P := fun x => x.id = id ∧ x.Carries f)).trans ?_
  simp only [topLevel, List.mem_append, List.mem_map, or_and_right, exists_or]
  simp [Element.Carried]

theorem Proper.root (hp : s.Proper) {r : Root} (hr : r ∈ s.roots) :
    ∀ x ∈ (Element.root r).subtree, x.Proper := by
  intro x hx
  obtain ⟨p, hpe, rfl⟩ := List.mem_map.mp hx
  exact hp p (mem_placed.mpr ⟨.root r, mem_topLevel_root.mpr hr, hpe⟩)

/-- **Writing fails exactly when the scope or one of its elements holds what has no place in
documents, and names what and where.** Otherwise the document holds what comes back from it. -/
theorem writes_reread (hc : s.Complete) :
    Writes s.toDocument s.Carries s.reread.WrittenAs := by
  unfold toDocument
  cases he : s.extensions with
  | cons e es =>
    refine .inr ⟨s.id, .extensions, rfl, .inl ⟨rfl, .inl ⟨rfl, by simp [he]⟩⟩⟩
  | nil =>
    refine (s.header.toNode_writes.bind fun n hn =>
      (Writes.mapM fun r hr => Root.writes (hc r hr)).bind fun rns hrns =>
      (Writes.mapM fun r _ => r.writes).map fun lns hlns => ?_).congr fun id f => ?_
    · obtain ⟨rfl, hv⟩ := hn
      exact ⟨he, hv, rns, lns, rfl, List.forall₂_map_left_iff.mpr hrns, hlns⟩
    · rw [Carries, exists_carried_iff, Scope.id]
      simp [he]

theorem Proper.reread (hp : s.Proper) : s.reread = s := by
  have hroots : s.roots.map Root.reread = s.roots :=
    (List.map_congr_left fun r hr => Root.reread_eq_self (hp.root hr)).trans (List.map_id _)
  rw [Scope.reread, hroots]
  cases s
  rfl

/-- Where no technology goes by a reserved name the document holds what the scope holds. -/
theorem writes (hc : s.Complete) (hp : s.Proper) : Writes s.toDocument s.Carries s.WrittenAs := by
  have hwrites := writes_reread hc
  rwa [hp.reread] at hwrites

end Scope

end BpmnModel
