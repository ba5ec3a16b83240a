import BpmnModel.Proofs.RecordedCollaborations
import BpmnModel.Proofs.RecordedFlows
import BpmnModel.Proofs.RoundTrip

/-!
# What documents lose when they are read and written again

Reading refuses what it does not know, but it is lenient in two places: documentation of nodes that
carry no identifier is passed over, attributes and all, and of several expressions in one role all
but the last are dropped.  Nothing else is lost.

* `Root.recorded` — root elements of every kind.
* `Scope.Sorted` — each child of the root went to one of three lists.
* `Scope.represented` — what comes back, label by label.
-/

namespace BpmnModel

variable {n : Node}

/-! ## Children of the root -/

namespace ImportDeclaration

theorem records {d : ImportDeclaration} (hlabel : n.label = "import") (h : ofNode n = .ok d) :
    d.toNode.Records n := by
  simp only [ofNode, bind_eq_ok, pure_eq_ok, Except.ok.injEq] at h
  obtain ⟨type, -, target, -, location, -, ⟨⟩, hfinish, ⟨⟩, hcontent, type', -, rfl⟩ := h
  exact Recorded.records_of_anonymous hlabel rfl (by decide) hfinish hcontent (by simp [toNode])

end ImportDeclaration

namespace Root

/-- **A root element that was read is written, with nothing missing that is kept of its node.** -/
theorem recorded {parent : String} {r : Root} (h : ofNode parent n = .ok r) :
    Recorded r.toNode n := by
  unfold ofNode at h
  split at h
  · rename_i hlabel
    obtain ⟨x, hx, rfl⟩ := map_eq_ok.mp h
    exact Process.recorded hlabel hx
  · rename_i hlabel
    obtain ⟨x, hx, rfl⟩ := map_eq_ok.mp h
    exact Collaboration.recorded (by simp [hlabel]) hx
  · rename_i hlabel
    obtain ⟨x, hx, rfl⟩ := map_eq_ok.mp h
    exact Collaboration.recorded (by simp [hlabel]) hx
  · rename_i hlabel
    obtain ⟨x, hx, rfl⟩ := map_eq_ok.mp h
    exact Interface.recorded hlabel hx
  · rename_i hlabel
    obtain ⟨x, hx, rfl⟩ := map_eq_ok.mp h
    exact EndPoint.recorded hlabel hx
  · rename_i hlabel
    obtain ⟨x, hx, rfl⟩ := map_eq_ok.mp h
    exact Message.recorded hlabel hx
  · rename_i hlabel
    obtain ⟨x, hx, rfl⟩ := map_eq_ok.mp h
    exact ItemDefinition.recorded hlabel hx
  · rename_i hlabel
    obtain ⟨x, hx, rfl⟩ := map_eq_ok.mp h
    exact ErrorDefinition.recorded hlabel hx
  · rename_i hlabel
    obtain ⟨x, hx, rfl⟩ := map_eq_ok.mp h
    exact Escalation.recorded hlabel hx
  · rename_i hlabel
    obtain ⟨x, hx, rfl⟩ := map_eq_ok.mp h
    exact Resource.recorded hlabel hx
  · rename_i hlabel
    obtain ⟨x, hx, rfl⟩ := map_eq_ok.mp h
    exact Category.recorded hlabel hx
  · rename_i hlabel
    obtain ⟨x, hx, rfl⟩ := map_eq_ok.mp h
    exact CorrelationProperty.recorded hlabel hx
  · cases h

end Root

/-! ## Scopes -/

namespace Scope

variable {s t : Scope}

/-- The nodes that the parts of a scope were read from, below a root with the header. -/
structure SortedFrom (s : Scope) (header : Header) (is rs ls : List Node) : Prop where
  header : s.header = header
  extensions : s.extensions = []
  imports : List.Forall₂ (fun i n => i.declaration.toNode.Records n) s.imports is
  roots : List.Forall₂ (fun r n => Recorded r.toNode n) s.roots rs
  relationships : List.Forall₂ (fun r n => Recorded r.toNode n) s.relationships ls

/-- Each of the nodes went to one of the three lists of the scope. -/
def Sorted (header : Header) (s : Scope) (ns : List Node) : Prop :=
  ∃ is rs ls, s.SortedFrom header is rs ls ∧ (is ++ rs ++ ls).Perm ns

/-- A child of the root goes to the end of one of three lists. -/
theorem Sorted.addNode {header : Header} {m : Node} {ns : List Node} (h : s.Sorted header ns)
    (hadd : s.addNode m = .ok t) : t.Sorted header (ns ++ [m]) := by
  obtain ⟨is, rs, ls, h, hperm⟩ := h
  have hone : (is ++ rs ++ ls ++ [m]).Perm (ns ++ [m]) := hperm.append_right [m]
  simp only [← Multiset.coe_eq_coe, ← Multiset.coe_add] at hone
  unfold Sorted
  simp only [← Multiset.coe_eq_coe, ← Multiset.coe_add, ← hone]
  obtain ⟨change, outcome, hchange, hrun⟩ := exists_of_addNode hadd
  unfold Change.ofNode at hchange
  split at hchange
  · rename_i hlabel
    obtain ⟨d, hd, rfl⟩ := map_eq_ok.mp hchange
    cases hrun
    have hd := ImportDeclaration.records hlabel hd
    refine ⟨is ++ [m], rs, ls, { h with imports := Node.forall₂_concat h.imports hd }, ?_⟩
    rw [← Multiset.coe_add]
    abel
  · rename_i hlabel
    obtain ⟨r, hr, rfl⟩ := map_eq_ok.mp hchange
    rw [perform_addRelationship] at hrun
    split at hrun <;> cases hrun
    have hr := Relationship.recorded hlabel hr
    refine ⟨is, rs, ls ++ [m],
      { h with relationships := Node.forall₂_concat h.relationships hr }, ?_⟩
    rw [← Multiset.coe_add]
    abel
  · obtain ⟨r, hr, rfl⟩ := map_eq_ok.mp hchange
    rw [perform_addRoot] at hrun
    split at hrun <;> cases hrun
    have hr := Root.recorded hr
    refine ⟨is, rs ++ [m], ls, { h with roots := Node.forall₂_concat h.roots hr }, ?_⟩
    rw [← Multiset.coe_add]
    abel

/-- **A scope that was read is written, with nothing missing that is kept of the document.** -/
theorem exists_records (h : ofDocument d = .ok s) :
    ∃ d', s.toDocument = .ok d' ∧ d'.root.Records d.root := by
  unfold ofDocument at h
  split at h
  · rename_i hlabel
    obtain ⟨header, hheader, hfold⟩ := bind_eq_ok.mp h
    have hi := Header.identifies hheader
    have hclosed : d.root.Closed (Node.fieldsOf d.root.label) := by
      simp only [Header.ofNode, bind_eq_ok] at hheader
      obtain ⟨-, -, -, -, -, -, -, -, -, -, -, -, -, -, -, -, ⟨⟩, hfinish, -⟩ := hheader
      exact Recorded.closed_of_finish hlabel hfinish rfl
    have hstart : Sorted header
        { Scope.fresh header.identity.id header.targetNamespace with header } [] :=
      ⟨[], [], [], ⟨rfl, rfl, .nil, .nil, .nil⟩, .nil⟩
    obtain ⟨is, rs, ls, ⟨rfl, hextensions, his, hrs, hls⟩, hperm⟩ :=
      Node.foldlM_concat (fun _ _ _ _ h hadd => h.addNode hadd) hstart hfold
    obtain ⟨rns, hrns, hrall⟩ := Recorded.mapM hrs
    obtain ⟨lns, hlns, hlall⟩ := Recorded.mapM hls
    have hiall : List.Forall₂ Node.Records (s.imports.map (·.declaration.toNode)) is :=
      List.forall₂_map_left_iff.mpr his
    have hall : Node.RecordsAll (s.imports.map (·.declaration.toNode) ++ rns ++ lns)
        d.root.content := by
      refine Node.RecordsAll.reorder ?_ (.refl _) hperm
      exact .of_forall₂ (List.rel_append (List.rel_append hiall hrall) hlall)
    refine ⟨⟨s.header.node.pushAll (s.imports.map (·.declaration.toNode) ++ rns ++ lns)⟩, ?_, ?_⟩
    · unfold toDocument
      rw [hextensions, hrns, hlns, Header.toNode, Identity.toNode, hi.extensionValues]
      rfl
    · refine .of_content hi (by rw [hlabel]; decide) hclosed (by rw [hlabel]; decide)
        hall.below_content ?_ ?_
      · simp [hlabel]
      · simp [Header.node]
  · cases h

/-- **What documents lose.** Whatever is read can be written again, and the new document has exactly
as many nodes of each label as are kept of the old one: all but documentation of nodes that carry no
identifier and expressions whose role a later one takes. It has as many nodes of each label as the
old document itself exactly if there is no such node. Every attribute of every node that is looked
at is one that is read from nodes with its label. -/
theorem represented {d : Document} (h : ofDocument d = .ok s) :
    ∃ d', s.toDocument = .ok d' ∧
      (∀ label, Node.tally label d'.root.nodes = Node.tally label d.root.kept) ∧
      ((∀ label, Node.tally label d'.root.nodes = Node.tally label d.root.nodes) ↔ d.root.Tidy) ∧
      (∀ x ∈ d.root.heard, ∀ a ∈ x.attributes.names, a ∈ Node.fieldsOf x.label) ∧
      (d.root.Tidy → ∀ x ∈ d.root.nodes, ∀ a ∈ x.attributes.names, a ∈ Node.fieldsOf x.label) := by
  obtain ⟨d', hd', hrecords⟩ := exists_records h
  refine ⟨d', hd', hrecords.counts, ?_, hrecords.known, fun htidy x hx => ?_⟩
  · simp only [hrecords.counts]
    rw [Node.tally_eq_iff d.root.kept_sublist_nodes, Node.kept_eq_nodes_iff]
  · refine hrecords.known x (d.root.kept_sublist_heard.subset ?_)
    rwa [Node.kept_eq_nodes_iff.mpr htidy]

/-- A document with a process whose only task flows to itself, with these nodes below the flow. -/
def loopingFlow (below : List Node) : Document where
  root := ⟨"definitions", .ofList [("id", .text "Defs"), ("targetNamespace", .text "urn:t")],
    [⟨"process", .ofList [("id", .text "p")],
      [⟨"task", .ofList [("id", .text "a")], []⟩,
        ⟨"sequenceFlow", .ofList [("id", .text "f"), ("sourceRef", .text "a"),
          ("targetRef", .text "a")], below⟩]⟩]⟩

/-- A condition with these nodes below it. -/
def condition (body : String) (below : List Node) : Node :=
  ⟨"conditionExpression", .ofList [("body", .text body)], below⟩

/-- Documentation with a text in some language. -/
def note (language text : String) : Node :=
  ⟨"documentation", .ofList [(language, .text text)], []⟩

/-- What is read from the document is written as a document of which `p` holds. -/
theorem exists_written {d : Document} {p : Document → Bool}
    (h : (match ofDocument d with
      | .ok s =>
        match s.toDocument with
        | .ok d' => p d'
        | .error _ => false
      | .error _ => false) = true) :
    ∃ s d', ofDocument d = .ok s ∧ s.toDocument = .ok d' ∧ p d' = true := by
  split at h
  · rename_i s hs
    split at h
    · rename_i d' hd'
      exact ⟨s, d', hs, hd', h⟩
    · cases h
  · cases h

/-- A flow may be documented and have a condition. -/
theorem represented_documented :
    let d := loopingFlow [note "text" "again", condition "x" []]
    ∃ s d', ofDocument d = .ok s ∧ s.toDocument = .ok d' ∧
      ∀ label, Node.tally label d'.root.nodes = Node.tally label d.root.nodes := by
  intro d
  obtain ⟨s, -, hs, -, -⟩ := exists_written (d := d) (p := fun _ => true) (by decide +kernel)
  obtain ⟨d', hd', -, hall, -⟩ := represented hs
  exact ⟨s, d', hs, hd', hall.mpr (Node.kept_eq_nodes_iff.mp rfl)⟩

/-- Of two conditions one comes back. Documentation of a condition does not come back, whatever its
attributes are. -/
theorem unrepresented_conditions :
    (let d := loopingFlow [condition "x" [], condition "y" []]
      ∃ s d', ofDocument d = .ok s ∧ s.toDocument = .ok d' ∧
        Node.tally "conditionExpression" d'.root.nodes = 1 ∧
        Node.tally "conditionExpression" d.root.nodes = 2) ∧
    (let d := loopingFlow [condition "x" [note "texte" "encore"]]
      ∃ s d', ofDocument d = .ok s ∧ s.toDocument = .ok d' ∧
        Node.tally "documentation" d'.root.nodes = 0 ∧
        Node.tally "documentation" d.root.nodes = 1 ∧
        ∃ x ∈ d.root.nodes, ∃ a ∈ x.attributes.names, a ∉ Node.fieldsOf x.label) := by
  constructor
  · intro d
    obtain ⟨s, d', hs, hd', hp⟩ := exists_written (d := d)
      (p := fun d' => Node.tally "conditionExpression" d'.root.nodes == 1) (by decide +kernel)
    exact ⟨s, d', hs, hd', by simpa using hp, by decide +kernel⟩
  · intro d
    obtain ⟨s, d', hs, hd', hp⟩ := exists_written (d := d)
      (p := fun d' => Node.tally "documentation" d'.root.nodes == 0) (by decide +kernel)
    exact ⟨s, d', hs, hd', by simpa using hp, by decide +kernel, by decide +kernel⟩

end Scope

end BpmnModel
