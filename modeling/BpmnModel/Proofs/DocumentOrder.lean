import BpmnModel.Proofs.Growth
import BpmnModel.Proofs.ReorderedContainers
import BpmnModel.Proofs.Reloading
import BpmnModel.Proofs.Representation

/-!
# What reading a document depends on

Documents may differ in the order of attributes and of children that go to different lists. The edits
that they describe then agree family by family, and depend on each other only through the identifiers
that they register.

* `Root.ofNode_reordered` — root elements.
* `Scope.performAll_eq_ok_iff` — when edits that declare something are made, and what they lead to.
* `Scope.ofDocument_reordered` — both documents are read, or neither is; and then the scopes have the
  same lists, compare as equal and are written as the same document.
* `Scope.order_across_labels` — event definitions with different labels do go to one list, and so do
  the nodes of a sub-conversation.
-/

namespace BpmnModel

variable {n n' : Node}

/-! ## Root elements -/

namespace Root

theorem isLabel_of_read {parent : String} {r : Root} (h : ofNode parent n = .ok r) :
    isLabel n.label = true := by
  unfold ofNode at h
  split at h
  case h_13 => cases h
  all_goals rename_i heq; rw [heq]; decide

theorem ofNode_reordered (h : n.Reordered n') (parent : String) (r : Root) :
    ofNode parent n' = .ok r ↔ ofNode parent n = .ok r := by
  simp only [ofNode, h.label_eq]
  split
  · simp only [map_eq_ok, Process.ofNode_reordered h ‹_›]
  · simp only [map_eq_ok, Collaboration.ofNode_reordered h (by simp [*])]
  · simp only [map_eq_ok, Collaboration.ofNode_reordered h (by simp [*])]
  · simp only [map_eq_ok, Interface.ofNode_reordered h]
  · simp only [map_eq_ok, EndPoint.ofNode_reordered h]
  · simp only [map_eq_ok, Message.ofNode_reordered h]
  · simp only [map_eq_ok, ItemDefinition.ofNode_reordered h]
  · simp only [map_eq_ok, ErrorDefinition.ofNode_reordered h]
  · simp only [map_eq_ok, Escalation.ofNode_reordered h]
  · simp only [map_eq_ok, Resource.ofNode_reordered h]
  · simp only [map_eq_ok, Category.ofNode_reordered h]
  · simp only [map_eq_ok, CorrelationProperty.ofNode_reordered h]
  · rfl

end Root

/-! ## Edits that a document describes -/

namespace Change

def import? : Change → Option Import
  | addImport i => some i
  | _ => none

def addedRoot? : Change → Option Root
  | addRoot r => some r
  | _ => none

def relationship? : Change → Option Relationship
  | addRelationship r => some r
  | _ => none

/-- The edits that children of the root describe. -/
def Declares : Change → Prop
  | addImport _ | addRoot _ | addRelationship _ => True
  | _ => False

/-- The family of the children that describe the edit. -/
def family : Change → Family
  | addRoot _ => .roots
  | addRelationship _ => .labelled "relationship"
  | _ => .labelled "import"

theorem family_of_read {c : Change} (h : ofNode n = .ok c) :
    c.family = Family.of Header.label n.label ∧ c.Declares := by
  unfold ofNode at h
  split at h
  · rename_i hlabel
    obtain ⟨d, -, rfl⟩ := map_eq_ok.mp h
    have himport : Family.of Header.label "import" = .labelled "import" := by decide
    exact ⟨hlabel ▸ himport.symm, trivial⟩
  · rename_i hlabel
    obtain ⟨r, -, rfl⟩ := map_eq_ok.mp h
    have hrelationship : Family.of Header.label "relationship" = .labelled "relationship" := by
      decide
    exact ⟨hlabel ▸ hrelationship.symm, trivial⟩
  · obtain ⟨r, hr, rfl⟩ := map_eq_ok.mp h
    exact ⟨(Family.of_root (Root.isLabel_of_read hr)).symm, trivial⟩

theorem ofNode_reordered (h : n.Reordered n') (c : Change) :
    ofNode n' = .ok c ↔ ofNode n = .ok c := by
  simp only [ofNode, h.label_eq]
  split
  · simp only [map_eq_ok, ImportDeclaration.ofNode_reordered h]
  · simp only [map_eq_ok, Relationship.ofNode_reordered h]
  · simp only [map_eq_ok, Root.ofNode_reordered h]

end Change

namespace Scope

variable {s t : Scope}

/-- Children of the root are read one by one, and the edits are made in their order. -/
theorem foldlM_addNode_eq_ok_iff {ns : List Node} : ns.foldlM addNode s = .ok t ↔
    ∃ cs, ns.mapM Change.ofNode = .ok cs ∧ performAll cs s = .ok () t := by
  induction ns generalizing s with
  | nil =>
    have hnil : performAll [] s = .ok () s := rfl
    simp [hnil]
  | cons n ns ih =>
    rw [List.foldlM_cons, List.mapM_cons, addNode]
    cases Change.ofNode n with
    | error e => simp
    | ok c =>
      simp only [ok_bind, bind_eq_ok, pure_eq_ok, Except.ok.injEq, ↓existsAndEq, and_true,
        performAll_cons]
      cases c.perform s with
      | error e u => simp
      | ok outcome u => simp [ih]

/-- **Edits that declare something are made together or refused together**: they depend on each other
only through the identifiers that they register. -/
theorem performAll_eq_ok_iff {cs : List Change} (h : ∀ c ∈ cs, c.Declares) :
    performAll cs s = .ok () t ↔
      s.registry.registerAll (cs.flatMap Change.tree) = .ok t.registry ∧
        t = { s with
          registry := t.registry
          imports := s.imports ++ cs.filterMap Change.import?
          roots := s.roots ++ cs.filterMap Change.addedRoot?
          relationships := s.relationships ++ cs.filterMap Change.relationship? } := by
  induction cs generalizing s with
  | nil =>
    have hnil : performAll [] s = .ok () s := rfl
    obtain ⟨header, roots, relationships, imports, extensions, registry⟩ := s
    obtain ⟨header', roots', relationships', imports', extensions', registry'⟩ := t
    simp only [hnil, List.flatMap_nil, Registry.registerAll_nil, List.filterMap_nil,
      List.append_nil, EStateM.Result.ok.injEq, Except.ok.injEq, mk.injEq]
    grind
  | cons c cs ih =>
    obtain ⟨hc, hcs⟩ := List.forall_mem_cons.mp h
    rw [performAll_cons, List.flatMap_cons, Registry.registerAll_append]
    cases c with
    | addImport i =>
      have hrun : (Change.addImport i).perform s = .ok .done (s.addImport i) := rfl
      have htree : (Change.addImport i).tree = [] := rfl
      rw [hrun, htree, Registry.registerAll_nil]
      simp [ih hcs, addImport, List.filterMap_cons, Change.import?, Change.addedRoot?,
        Change.relationship?]
    | addRoot r =>
      have htree : (Change.addRoot r).tree = (Element.root r).placed none := rfl
      rw [perform_addRoot, htree, Registry.register]
      cases s.registry.registerAll ((Element.root r).placed none) with
      | error e => simp
      | ok registry =>
        simp [ih hcs, List.filterMap_cons, Change.import?, Change.addedRoot?,
          Change.relationship?]
    | addRelationship r =>
      have htree : (Change.addRelationship r).tree = (Element.relationship r).placed none := rfl
      rw [perform_addRelationship, htree, Registry.register]
      cases s.registry.registerAll ((Element.relationship r).placed none) with
      | error e => simp
      | ok registry =>
        simp [ih hcs, List.filterMap_cons, Change.import?, Change.addedRoot?,
          Change.relationship?]
    | _ => exact hc.elim

/-- Edits that agree family by family are refused together, or lead to the same scope. -/
theorem performAll_of_agree {cs cs' : List Change} (h : Family.Agree Change.family cs cs')
    (hcs : ∀ c ∈ cs, c.Declares) (hrun : performAll cs s = .ok () t) :
    ∃ t', performAll cs' s = .ok () t' ∧ t.Identical t' := by
  have hcs' : ∀ c ∈ cs', c.Declares := fun c hc => hcs c (h.perm.mem_iff.mpr hc)
  obtain ⟨hregistry, ht⟩ := (performAll_eq_ok_iff hcs).mp hrun
  -- identifiers are registered in another order, but whether they clash does not depend on it
  obtain ⟨registry, hregistry', hsame⟩ :=
    Registry.registerAll_perm ((h.perm.flatMap_right Change.tree).map Placed.slot) hregistry
  refine ⟨{ t with registry }, (performAll_eq_ok_iff hcs').mpr ⟨hregistry', ?_⟩, rfl, hsame⟩
  rw [← h.filterMap_eq Change.import? (.labelled "import"),
    ← h.filterMap_eq Change.addedRoot? .roots,
    ← h.filterMap_eq Change.relationship? (.labelled "relationship"), ht]
  all_goals
    intro c x hx
    cases c <;> first | rfl | cases hx

theorem ofDocument_eq_ok_iff {d : Document} : ofDocument d = .ok s ↔
    d.root.label = Header.label ∧ ∃ header, Header.ofNode d.root = .ok header ∧
      ∃ cs, d.root.content.mapM Change.ofNode = .ok cs ∧
        performAll cs { Scope.fresh header.identity.id header.targetNamespace with header } =
          .ok () s := by
  unfold ofDocument
  split
  · rename_i hlabel
    simp only [bind_eq_ok, foldlM_addNode_eq_ok_iff, hlabel, true_and]
  · simp [*]

/-- The children of the root describe the same edits, but for the order of those of different
families. -/
theorem changes_reordered (h : n.Reordered n') (hlabel : n.label = Header.label) :
    ((∃ cs', n'.content.mapM Change.ofNode = .ok cs') ↔
        ∃ cs, n.content.mapM Change.ofNode = .ok cs) ∧
      ∀ cs cs', n.content.mapM Change.ofNode = .ok cs → n'.content.mapM Change.ofNode = .ok cs' →
        Family.Agree Change.family cs cs' := by
  have hkeep : ∀ c c' : Node, c'.label = c.label →
      (!c'.isDocumentation) = !c.isDocumentation := fun c c' hc => by simp [Node.isDocumentation, hc]
  have htag (c : Node) (x : Change) (_ : (!c.isDocumentation) = true)
      (hx : Change.ofNode c = .ok x) : x.family = Family.of n.label c.label :=
    hlabel ▸ (Change.family_of_read hx).1
  have hread (c : Node) (_ : c ∈ n.children) (_ : (!c.isDocumentation) = true) (c' : Node)
      (hcc' : c.Reordered c') := Change.ofNode_reordered hcc'
  refine ⟨?_, fun cs cs' => h.agree_of_mapM hkeep htag hread⟩
  simpa [Node.content] using h.exists_mapM_iff Change.family hkeep htag hread (P := fun _ => True)
    fun _ _ _ => Iff.rfl

theorem ReadAt.same_of_identical (h : s.ReadAt n) (ht : s.Identical t) : s.same t = true := by
  rw [ht.parts]
  exact same_of_eq h.reachable.complete h.reachable.agrees.nodup_roots h.unbound rfl rfl rfl rfl rfl

/-- What is read from one document is read from the other. -/
theorem exists_of_reordered {d d' : Document} (h : d.root.Reordered d'.root)
    (hs : ofDocument d = .ok s) : ∃ s', ofDocument d' = .ok s' ∧ s.Identical s' := by
  obtain ⟨hlabel, header, hheader, cs, hcs, hrun⟩ := ofDocument_eq_ok_iff.mp hs
  obtain ⟨hexists, hagree⟩ := changes_reordered h hlabel
  obtain ⟨cs', hcs'⟩ := hexists.mpr ⟨cs, hcs⟩
  -- documents describe additions only, so that no edit depends on one before it
  have hdeclares : ∀ c ∈ cs, c.Declares := fun c hc =>
    (Node.exists_of_mapM hcs hc).elim fun _ hm => (Change.family_of_read hm.2).2
  obtain ⟨s', hrun', hidentical⟩ := performAll_of_agree (hagree cs cs' hcs hcs') hdeclares hrun
  refine ⟨s', ofDocument_eq_ok_iff.mpr ⟨h.label_eq.trans hlabel, header, ?_, cs', hcs', hrun'⟩,
    hidentical⟩
  exact (Header.ofNode_reordered h header).mpr hheader

/-- Two documents that are read as scopes of which `p` holds. -/
theorem exists_both (d d' : Document) (p : Scope → Scope → Bool)
    (h : (match ofDocument d, ofDocument d' with
      | .ok s, .ok s' => p s s'
      | _, _ => false) = true) :
    ∃ s s', ofDocument d = .ok s ∧ ofDocument d' = .ok s' ∧ p s s' = true := by
  split at h
  · rename_i s s' hs hs'
    exact ⟨s, s', hs, hs', h⟩
  · cases h

/-- A document with these attributes and children of its root. -/
def rootedAt (attributes : List (String × Value)) (children : List Node) : Document where
  root := ⟨"definitions", .ofList attributes, children⟩

/-- A node with an identifier. -/
def named (label id : String) (children : List Node) : Node :=
  ⟨label, .ofList [("id", .text id)], children⟩

/-- A relationship between two elements. -/
def relating (id source target : String) : Node :=
  ⟨"relationship", .ofList [("id", .text id), ("type", .text "t"), ("sources", .list [source]),
    ("targets", .list [target])], []⟩

/-- **What reading depends on**: neither the order of attributes nor the order of children that go to
different lists decides whether a document is read, or what is read from it. Only the order in which
elements are registered may change. -/
theorem ofDocument_reordered {d d' : Document} (h : d.root.Reordered d'.root) :
    ((∃ s, ofDocument d = .ok s) ↔ ∃ s, ofDocument d' = .ok s) ∧
      ∀ s s', ofDocument d = .ok s → ofDocument d' = .ok s' →
        s' = { s with registry := s'.registry } ∧ s.registry.Same s'.registry ∧
          s.same s' = true ∧ s'.same s = true ∧
          ∃ e, s.toDocument = .ok e ∧ s'.toDocument = .ok e := by
  refine ⟨⟨?_, ?_⟩, ?_⟩
  · rintro ⟨s, hs⟩
    exact (exists_of_reordered h hs).imp fun _ hs' => hs'.1
  · rintro ⟨s, hs⟩
    exact (exists_of_reordered h.symm hs).imp fun _ hs' => hs'.1
  · intro s s' hs hs'
    obtain ⟨t, ht, hidentical⟩ := exists_of_reordered h hs
    cases hs'.symm.trans ht
    obtain ⟨e, he, -⟩ := exists_records hs
    refine ⟨hidentical.parts, hidentical.registry,
      (readAt_of_ofDocument hs).same_of_identical hidentical,
      (readAt_of_ofDocument hs').same_of_identical hidentical.symm, e, he, ?_⟩
    rw [hidentical.parts]
    exact he

/-- A relationship may come before the process, and a lane set before the tasks. Only the order of
registration changes. -/
theorem ofDocument_reordered_lanes :
    let d := rootedAt [("id", .text "Defs"), ("targetNamespace", .text "urn:t")]
      [named "process" "p" [named "task" "a" [], named "laneSet" "ls" [], named "task" "b" []],
        relating "r" "a" "b"]
    let d' := rootedAt [("targetNamespace", .text "urn:t"), ("id", .text "Defs")]
      [relating "r" "a" "b",
        named "process" "p" [named "laneSet" "ls" [], named "task" "a" [], named "task" "b" []]]
    d.root.Reordered d'.root ∧ ∃ s s', ofDocument d = .ok s ∧ ofDocument d' = .ok s' ∧
      s.registry ≠ s'.registry ∧ s.same s' = true ∧
      ∃ e, s.toDocument = .ok e ∧ s'.toDocument = .ok e := by
  intro d d'
  have hprocess : Node.Reordered
      (named "process" "p" [named "task" "a" [], named "laneSet" "ls" [], named "task" "b" []])
      (named "process" "p" [named "laneSet" "ls" [], named "task" "a" [], named "task" "b" []]) :=
    .of_families [.flowElements, .labelled "laneSet"] rfl (.refl _) (by decide)
      (List.forall_mem_cons.mpr ⟨.cons (.refl _ _) (.cons (.refl _ _) .nil),
        List.forall_mem_singleton.mpr (.cons (.refl _ _) .nil)⟩)
  have hroot : d.root.Reordered d'.root :=
    .of_families [.roots, .labelled "relationship"] rfl (by decide) (by decide)
      (List.forall_mem_cons.mpr ⟨.cons hprocess .nil,
        List.forall_mem_singleton.mpr (.cons (.refl _ _) .nil)⟩)
  obtain ⟨s, s', hs, hs', hne⟩ := exists_both d d'
    (fun s s' => decide (s.registry ≠ s'.registry)) (by decide +kernel)
  obtain ⟨-, -, hsame, -, hwritten⟩ := (ofDocument_reordered hroot).2 s s' hs hs'
  exact ⟨hroot, s, s', hs, hs', of_decide_eq_true hne, hsame, hwritten⟩

/-- The documents are read as different scopes, and these are written as different documents. -/
def ReadApart (d d' : Document) : Prop :=
  ∃ s s', ofDocument d = .ok s ∧ ofDocument d' = .ok s' ∧ s.same s' = false ∧
    ∃ e e', s.toDocument = .ok e ∧ s'.toDocument = .ok e' ∧
      e.root.nodes.map Node.label ≠ e'.root.nodes.map Node.label

theorem readApart_of_check {d d' : Document}
    (h : (match ofDocument d, ofDocument d' with
      | .ok s, .ok s' =>
        match s.toDocument, s'.toDocument with
        | .ok e, .ok e' =>
          !s.same s' && decide (e.root.nodes.map Node.label ≠ e'.root.nodes.map Node.label)
        | _, _ => false
      | _, _ => false) = true) : ReadApart d d' := by
  obtain ⟨s, s', hs, hs', h⟩ := exists_both d d' (fun s s' =>
    match s.toDocument, s'.toDocument with
    | .ok e, .ok e' =>
      !s.same s' && decide (e.root.nodes.map Node.label ≠ e'.root.nodes.map Node.label)
    | _, _ => false) h
  split at h
  · rename_i e e' he he'
    simp only [Bool.and_eq_true, Bool.not_eq_true', decide_eq_true_eq] at h
    exact ⟨s, s', hs, hs', h.1, e, e', he, he', h.2⟩
  · cases h

/-- A document with an event that these nodes define. -/
def definedBy (definitions : List Node) : Document :=
  rootedAt [("id", .text "Defs"), ("targetNamespace", .text "urn:t")]
    [named "process" "p" [named "endEvent" "e" definitions]]

/-- A conversation node between two participants. -/
def between (label id : String) (children : List Node) : Node :=
  ⟨label, .ofList [("id", .text id), ("participantRefs", .list ["a", "b"])], children⟩

/-- A document with a sub-conversation of these nodes. -/
def conversingIn (nodes : List Node) : Document :=
  rootedAt [("id", .text "Defs"), ("targetNamespace", .text "urn:t")]
    [named "collaboration" "c" [between "subConversation" "s" nodes]]

/-- **Event definitions, and nodes of sub-conversations, keep their order across labels.** -/
theorem order_across_labels :
    (let m := Node.bare "messageEventDefinition"
      let e := Node.bare "errorEventDefinition"
      (definedBy [m, e]).root.ReorderedBy Family.ofContainer (definedBy [e, m]).root ∧
        ReadApart (definedBy [m, e]) (definedBy [e, m])) ∧
    (let x := between "conversation" "x" []
      let y := between "callConversation" "y" []
      (conversingIn [x, y]).root.ReorderedBy Family.ofContainer (conversingIn [y, x]).root ∧
        ReadApart (conversingIn [x, y]) (conversingIn [y, x])) := by
  constructor
  · intro m e
    exact ⟨.of_child (.of_child (.swap (by decide))), readApart_of_check (by decide +kernel)⟩
  · intro x y
    exact ⟨.of_child (.of_child (.swap (by decide))), readApart_of_check (by decide +kernel)⟩

end Scope

end BpmnModel
