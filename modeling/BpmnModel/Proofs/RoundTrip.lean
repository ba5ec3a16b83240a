import BpmnModel.Proofs.Documents
import BpmnModel.Proofs.Mirroring
import BpmnModel.Proofs.Sameness

/-!
# Scopes, written and read back

A document describes a scope by the edits that lead to it.  Reading makes these edits again, and
since identifiers are distinct in the scope that was written, none is refused.

* `Scope.ofDocument_of_describedBy` — the scope that a document describes is read from it.
* `Scope.readAt_of_ofDocument` — the scope of any document is reachable, and what it holds was read
  from the children of the root.
* `Scope.mirrors_of_origin` — tree and registry agree also in a scope that was read.
* `Scope.document_round_trip` — when writing fails, and what comes back when it does not.
-/

namespace BpmnModel

namespace Scope

variable {s t : Scope} {n : Node}

/-! ## Making the edits of a document again -/

theorem addNode_import (s : Scope) (d : ImportDeclaration) :
    s.addNode d.toNode = .ok (s.addImport (.unbound d)) := by
  simp only [addNode, Change.ofNode, ImportDeclaration.label_toNode,
    ImportDeclaration.ofNode_toNode, map_ok, ok_bind]
  rfl

theorem addNode_root {r : Root} {registry : Registry} (h : r.ReadFrom n)
    (hr : s.registry.register (.root r) none = .ok registry) :
    s.addNode n = .ok { s with registry, roots := s.roots ++ [r] } := by
  obtain ⟨⟨-, hi, hrel⟩, hread⟩ := h
  have hchange : Change.ofNode n = .ok (.addRoot r) := by
    unfold Change.ofNode
    split
    · contradiction
    · contradiction
    · rw [hread, map_ok]
  rw [addNode, hchange, ok_bind, perform_addRoot, hr]
  rfl

theorem addNode_relationship {r : Relationship} {registry : Registry}
    (h : n.label = "relationship" ∧ Relationship.ofNode n = .ok r)
    (hr : s.registry.register (.relationship r) none = .ok registry) :
    s.addNode n = .ok { s with registry, relationships := s.relationships ++ [r] } := by
  have hchange : Change.ofNode n = .ok (.addRelationship r) := by
    simp [Change.ofNode, h.1, h.2]
  rw [addNode, hchange, ok_bind, perform_addRelationship, hr]
  rfl

theorem foldlM_addNode_imports (s : Scope) (ds : List ImportDeclaration) :
    (ds.map ImportDeclaration.toNode).foldlM addNode s =
      .ok { s with imports := s.imports ++ ds.map .unbound } := by
  induction ds generalizing s with
  | nil =>
    obtain ⟨header, roots, relationships, imports, extensions, registry⟩ := s
    simp
  | cons d ds ih =>
    rw [List.map_cons, List.foldlM_cons, addNode_import, ok_bind, ih]
    simp [addImport]

theorem foldl_with_registry {α : Type} {store : Scope → α → Scope}
    (hstore : ∀ s x registry, store { s with registry } x = { store s x with registry })
    (s : Scope) (xs : List α) (registry : Registry) :
    xs.foldl store { s with registry } = { xs.foldl store s with registry } := by
  induction xs generalizing s with
  | nil => rfl
  | cons x xs ih => rw [List.foldl_cons, hstore, ih, List.foldl_cons]

/-- Elements with new identifiers are added one by one. -/
theorem foldlM_addNode {α : Type} {mk : α → Element} {store : Scope → α → Scope}
    {good : α → Node → Prop}
    (hadd : ∀ (s : Scope) (x : α) (n : Node) (registry : Registry), good x n →
      s.registry.register (mk x) none = .ok registry →
      s.addNode n = .ok { store s x with registry })
    (hstore : ∀ s x registry, store { s with registry } x = { store s x with registry })
    {xs : List α} {ns : List Node} (h : List.Forall₂ good xs ns) {tree : List Placed}
    (hrec : s.registry.Records tree)
    (hnd : ((tree ++ xs.flatMap fun x => (mk x).placed none).map Placed.id).Nodup)
    (hfree : ∀ x ∈ xs, ∀ p ∈ (mk x).placed none, p.id ∉ s.registry.reserved) :
    ∃ registry, ns.foldlM addNode s = .ok { xs.foldl store s with registry } ∧
      registry.Records (tree ++ xs.flatMap fun x => (mk x).placed none) ∧
      registry.reserved = s.registry.reserved := by
  induction h generalizing s tree with
  | nil =>
    obtain ⟨header, roots, relationships, imports, extensions, registry⟩ := s
    exact ⟨registry, rfl, by simpa using hrec, rfl⟩
  | @cons x n xs ns hx _ ih =>
    rw [List.flatMap_cons, ← List.append_assoc] at hnd
    have hnd' : ((tree ++ (mk x).placed none).map Placed.id).Nodup := by
      rw [List.map_append] at hnd
      exact (List.nodup_append.mp hnd).1
    have hr := hrec.registerAll_of_fresh hnd' (hfree x List.mem_cons_self)
    obtain ⟨hrec', hres⟩ := hrec.register hr
    obtain ⟨registry, hfold, hrec'', hres'⟩ := ih (s := { store s x with
      registry := { s.registry with
        slots := s.registry.slots ++ ((mk x).placed none).map Placed.slot } }) hrec' hnd
      fun y hy => hfree y (List.mem_cons_of_mem x hy)
    refine ⟨registry, ?_, ?_, hres'⟩
    · rw [List.foldlM_cons, hadd s x n _ hx hr, ok_bind, hfold, foldl_with_registry hstore]
      rfl
    · rw [List.flatMap_cons, ← List.append_assoc]
      exact hrec''

theorem foldlM_addNode_roots {rs : List Root} {ns : List Node}
    (h : List.Forall₂ Root.ReadFrom rs ns) {tree : List Placed} (hrec : s.registry.Records tree)
    (hnd : ((tree ++ rs.flatMap fun r => (Element.root r).placed none).map Placed.id).Nodup)
    (hfree : ∀ r ∈ rs, ∀ p ∈ (Element.root r).placed none, p.id ∉ s.registry.reserved) :
    ∃ registry, ns.foldlM addNode s = .ok { s with registry, roots := s.roots ++ rs } ∧
      registry.Records (tree ++ rs.flatMap fun r => (Element.root r).placed none) ∧
      registry.reserved = s.registry.reserved := by
  let store (s : Scope) (r : Root) : Scope := { s with roots := s.roots ++ [r] }
  have hstore : ∀ s x registry, store { s with registry } x = { store s x with registry } :=
    fun _ _ _ => rfl
  have hpush (s : Scope) : rs.foldl store s = { s with roots := s.roots ++ rs } := by
    clear h hnd hfree
    induction rs generalizing s with
    | nil =>
      obtain ⟨header, roots, relationships, imports, extensions, registry⟩ := s
      simp
    | cons r rs ih => simp [ih, store]
  obtain ⟨registry, hfold, hrest⟩ :=
    foldlM_addNode (fun _ _ _ _ => addNode_root) hstore h hrec hnd hfree
  refine ⟨registry, ?_, hrest⟩
  rw [hfold, hpush]

theorem foldlM_addNode_relationships {rs : List Relationship} {ns : List Node}
    (h : List.Forall₂ (fun r n => n.label = "relationship" ∧ Relationship.ofNode n = .ok r) rs ns)
    {tree : List Placed} (hrec : s.registry.Records tree)
    (hnd : ((tree ++ rs.flatMap fun r => (Element.relationship r).placed none).map
      Placed.id).Nodup)
    (hfree : ∀ r ∈ rs, ∀ p ∈ (Element.relationship r).placed none, p.id ∉ s.registry.reserved) :
    ∃ registry, ns.foldlM addNode s =
      .ok { s with registry, relationships := s.relationships ++ rs } := by
  let store (s : Scope) (r : Relationship) : Scope :=
    { s with relationships := s.relationships ++ [r] }
  have hstore : ∀ s x registry, store { s with registry } x = { store s x with registry } :=
    fun _ _ _ => rfl
  have hpush (s : Scope) :
      rs.foldl store s = { s with relationships := s.relationships ++ rs } := by
    clear h hnd hfree
    induction rs generalizing s with
    | nil =>
      obtain ⟨header, roots, relationships, imports, extensions, registry⟩ := s
      simp
    | cons r rs ih => simp [ih, store]
  obtain ⟨registry, hfold, -⟩ :=
    foldlM_addNode (fun _ _ _ _ => addNode_relationship) hstore h hrec hnd hfree
  refine ⟨registry, ?_⟩
  rw [hfold, hpush]

/-- Reading the document makes the edits that lead to the scope. -/
structure DescribedBy (s : Scope) (d : Document) : Prop where
  extensions : s.extensions = []
  label : d.root.label = Header.label
  header : Header.ofNode d.root = .ok s.header
  content : ∃ rns lns, d.root.content = s.imports.map (·.declaration.toNode) ++ rns ++ lns ∧
    List.Forall₂ Root.ReadFrom s.roots rns ∧
    List.Forall₂ (fun r n => n.label = "relationship" ∧ Relationship.ofNode n = .ok r)
      s.relationships lns

theorem WrittenAs.describedBy {d : Document} (h : s.WrittenAs d) : s.DescribedBy d := by
  obtain ⟨hextensions, hv, rns, lns, hroot, hrns, hlns⟩ := h
  have hid : Node.AllContent (s.imports.map (·.declaration.toNode)) := by
    intro c hc
    obtain ⟨i, -, rfl⟩ := List.mem_map.mp hc
    simp [Node.isDocumentation]
  have hrd : Node.AllContent rns :=
    forall_of_forall₂ hrns fun _ _ hr => by simpa [Node.isDocumentation] using hr.1.1
  have hld := Node.allContent_of_forall₂ hlns (by decide)
  have hcs : Node.AllContent (s.imports.map (·.declaration.toNode) ++ rns ++ lns) := by
    simp [hid, hrd, hld]
  refine ⟨hextensions, ?_, ?_, rns, lns, ?_, hrns, hlns⟩
  · rw [hroot, Node.label_pushAll, Header.label_node]
  · rw [hroot, Header.ofNode_node hv hcs]
  · rw [hroot, Node.content_pushAll _ hcs, Header.content_node, List.nil_append]

/-- **The scope that a document describes is read from it, with an own registry and with imports
unbound.** -/
theorem ofDocument_of_describedBy (h : s.Agrees) {d : Document} (hd : s.DescribedBy d) :
    ∃ registry, ofDocument d = .ok { s with
      registry, imports := s.imports.map fun i => .unbound i.declaration } := by
  obtain ⟨hextensions, hlabel, hheader, rns, lns, hcontent, hrns, hlns⟩ := hd
  -- the scope before the first edit, and after the imports
  let start : Scope := { Scope.fresh s.id s.header.targetNamespace with header := s.header }
  let imported : Scope :=
    { start with imports := s.imports.map fun i => .unbound i.declaration }
  have himports : (s.imports.map (·.declaration.toNode)).foldlM addNode start = .ok imported := by
    have himports := foldlM_addNode_imports start (s.imports.map Import.declaration)
    rw [List.map_map, List.map_map] at himports
    exact himports
  have hplaced : s.placed = (s.roots.flatMap fun r => (Element.root r).placed none) ++
      s.relationships.flatMap fun r => (Element.relationship r).placed none := by
    rw [placed, topLevel, List.flatMap_append, List.flatMap_map, List.flatMap_map]
  have hnd := h.records.nodup
  have hfree : ∀ p ∈ s.placed, p.id ∉ [s.id] := by
    intro p hp
    rw [← h.reserved]
    exact h.records.free p hp
  rw [hplaced] at hnd hfree
  have hempty : imported.registry.Records [] := ⟨List.Perm.refl _, List.nodup_nil, by simp⟩
  obtain ⟨registry, hroots, hrec, hres⟩ := foldlM_addNode_roots hrns hempty
    (by rw [List.map_append] at hnd; exact (List.nodup_append.mp hnd).1)
    fun r hr p hp => hfree p (List.mem_append_left _ (List.mem_flatMap.mpr ⟨r, hr, hp⟩))
  obtain ⟨registry', hrelationships⟩ := foldlM_addNode_relationships
    (s := { imported with registry, roots := imported.roots ++ s.roots }) hlns hrec hnd
    fun r hr p hp => by
      rw [hres]
      exact hfree p (List.mem_append_right _ (List.mem_flatMap.mpr ⟨r, hr, hp⟩))
  have hfold : (s.imports.map (·.declaration.toNode) ++ rns ++ lns).foldlM addNode start =
      .ok { s with registry := registry', imports := imported.imports } := by
    rw [List.foldlM_append, List.foldlM_append, himports, ok_bind, hroots, ok_bind, hrelationships]
    rw [hextensions]
    rfl
  refine ⟨registry', ?_⟩
  rw [ofDocument, if_pos hlabel, hheader, ok_bind, hcontent]
  exact hfold

/-! ## What reading establishes -/

theorem exists_of_addNode (h : s.addNode n = .ok t) :
    ∃ change outcome, Change.ofNode n = .ok change ∧ change.perform s = .ok outcome t := by
  obtain ⟨change, hchange, h⟩ := bind_eq_ok.mp h
  cases hrun : change.perform s with
  | error e s' =>
    rw [hrun] at h
    cases h
  | ok outcome s' =>
    rw [hrun] at h
    cases h
    exact ⟨change, outcome, hchange, hrun⟩

/-- The parts of the scope were read from the root of a document and its children. -/
structure ReadAt (s : Scope) (n : Node) : Prop where
  reachable : Reachable s
  header : n.Identifies s.header.identity
  extensions : s.extensions = []
  imports : ∀ i ∈ s.imports, ∃ c ∈ n.children, ∃ d,
    i = .unbound d ∧ ImportDeclaration.ofNode c = .ok d
  roots : ∀ r ∈ s.roots, ∃ c ∈ n.children, ∃ parent, Root.ofNode parent c = .ok r
  relationships : ∀ r ∈ s.relationships, ∃ c ∈ n.children, Relationship.ofNode c = .ok r

theorem reachable_setField (h : Reachable s) (field : HeaderField) (value : String) :
    Reachable (s.setField field value) :=
  .after (.setField field value) trivial (by simp [Change.boundScope?]) h

/-- A fresh scope may be given any header, field by field. -/
theorem reachable_with_header (h : Header) :
    Reachable { Scope.fresh h.identity.id h.targetNamespace with header := h } := by
  obtain ⟨identity, name, target, expressionLanguage, typeLanguage, exporter, version⟩ := h
  have described : Reachable ((Scope.fresh identity.id target).describe identity.documentation
      identity.extensionValues) :=
    .after (.describe _ _) trivial (by simp [Change.boundScope?]) (.fresh identity.id target)
  have named : Reachable { Scope.fresh identity.id target with
      header := ⟨identity, name, target, expressionLanguage, typeLanguage, none, none⟩ } := by
    have hlanguages := reachable_setField (reachable_setField described .expressionLanguage
      expressionLanguage) .typeLanguage typeLanguage
    cases name with
    | none => exact hlanguages
    | some name => exact reachable_setField hlanguages .name name
  have exported : Reachable { Scope.fresh identity.id target with
      header := ⟨identity, name, target, expressionLanguage, typeLanguage, exporter, none⟩ } := by
    cases exporter with
    | none => exact named
    | some exporter => exact reachable_setField named .exporter exporter
  cases version with
  | none => exact exported
  | some version => exact reachable_setField exported .exporterVersion version

theorem ReadAt.addNode {c : Node} (h : s.ReadAt n) (hc : c ∈ n.children)
    (hadd : s.addNode c = .ok t) : t.ReadAt n := by
  obtain ⟨change, outcome, hchange, hrun⟩ := exists_of_addNode hadd
  have hafter : change.after s = t := by
    rw [Change.after, hrun]
  have hreachable (ha : change.Assembled) (hb : change.boundScope? = none) : Reachable t :=
    hafter ▸ .after change ha (by simp [hb]) h.reachable
  unfold Change.ofNode at hchange
  split at hchange
  · obtain ⟨d, hd, rfl⟩ := map_eq_ok.mp hchange
    cases hrun
    refine { h with reachable := hreachable trivial rfl, imports := fun i hi => ?_ }
    rcases List.mem_append.mp hi with hi | hi
    · exact h.imports i hi
    · exact ⟨c, hc, d, List.mem_singleton.mp hi, hd⟩
  · obtain ⟨r, hr, rfl⟩ := map_eq_ok.mp hchange
    rw [perform_addRelationship] at hrun
    split at hrun <;> cases hrun
    refine { h with reachable := hreachable trivial rfl, relationships := fun x hx => ?_ }
    rcases List.mem_append.mp hx with hx | hx
    · exact h.relationships x hx
    · exact ⟨c, hc, List.mem_singleton.mp hx ▸ hr⟩
  · obtain ⟨r, hr, rfl⟩ := map_eq_ok.mp hchange
    rw [perform_addRoot] at hrun
    split at hrun <;> cases hrun
    refine { h with reachable := hreachable (Root.of_read hr).2.1 rfl, roots := fun x hx => ?_ }
    rcases List.mem_append.mp hx with hx | hx
    · exact h.roots x hx
    · exact ⟨c, hc, Header.label, List.mem_singleton.mp hx ▸ hr⟩

theorem readAt_of_ofDocument {d : Document} (h : ofDocument d = .ok s) : s.ReadAt d.root := by
  unfold ofDocument at h
  split at h
  · obtain ⟨header, hheader, hfold⟩ := bind_eq_ok.mp h
    have hstart : ReadAt { Scope.fresh header.identity.id header.targetNamespace with header }
        d.root := by
      refine ⟨reachable_with_header header, Header.identifies hheader, rfl, ?_, ?_, ?_⟩
      all_goals exact nofun
    have hfoldl {ns : List Node} (hns : ∀ c ∈ ns, c ∈ d.root.children) {s t : Scope}
        (hs : s.ReadAt d.root) (hfold : ns.foldlM Scope.addNode s = .ok t) : t.ReadAt d.root := by
      induction ns generalizing s with
      | nil =>
        cases hfold
        exact hs
      | cons c ns ih =>
        obtain ⟨u, hu, hfold⟩ := bind_eq_ok.mp hfold
        exact ih (fun c' hc' => hns c' (List.mem_cons_of_mem c hc'))
          (hs.addNode (hns c List.mem_cons_self) hu) hfold
    exact hfoldl (fun c => Node.mem_children_of_mem_content) hstart hfold
  · cases h

/-- A document leads to no scope that edits do not lead to. -/
theorem reachable_of_origin {s : Scope} (h : Reachable s ∨ ∃ d, ofDocument d = .ok s) :
    Reachable s := by
  rcases h with h | ⟨d, h⟩
  · exact h
  · exact (readAt_of_ofDocument h).reachable

/-- **Tree and registry mirror each other**, whether edits or a document led to the scope. -/
theorem mirrors_of_origin {s : Scope} (h : Reachable s ∨ ∃ d, ofDocument d = .ok s) :
    s.Mirrors :=
  (reachable_of_origin h).mirrors

theorem mirrors_of_origin_task :
    let s := (Change.addFlowElement ⟨"p"⟩ (.task (.bare ⟨"t"⟩) .manual)).after
      ((Change.addRoot (.process (.bare ⟨"p"⟩))).after (Scope.fresh ⟨"Defs"⟩ "urn:t"))
    s.Mirrors ∧ s.registry.path ⟨"t"⟩ = [⟨"p"⟩, ⟨"t"⟩] := by
  intro s
  have hs : Reachable s :=
    .after _ (.task _ _) (by simp [Change.boundScope?])
      (.after _ ⟨[], [], nofun, rfl⟩ (by simp [Change.boundScope?]) (.fresh _ _))
  exact ⟨mirrors_of_origin (.inl hs), rfl⟩

/-! ## The round trip -/

theorem map_unbound_declaration {is : List Import} (h : ∀ i ∈ is, i.scope? = none) :
    (is.map fun i => .unbound i.declaration) = is := by
  refine (List.map_congr_left fun i hi => ?_).trans (List.map_id is)
  cases i with
  | unbound d => rfl
  | bound d stamp s => cases h _ hi

/-- What is read back from what was written has the same parts in the same order, but for the
technologies that go by reserved names. -/
theorem exists_reread_of_toDocument (h : Reachable s) (hbound : ∀ i ∈ s.imports, i.scope? = none)
    {d : Document} (hd : s.toDocument = .ok d) :
    ∃ registry, ofDocument d = .ok { s.reread with registry } ∧
      Reachable { s.reread with registry } := by
  rcases writes_reread h.complete with ⟨d', hd', hwritten, -⟩ | ⟨id, f, herror, -⟩
  · cases hd.symm.trans hd'
    obtain ⟨registry, hof⟩ := ofDocument_of_describedBy h.agrees.reread hwritten.describedBy
    have himports : (s.reread.imports.map fun i => .unbound i.declaration) = s.reread.imports :=
      map_unbound_declaration hbound
    rw [himports] at hof
    exact ⟨registry, hof, (readAt_of_ofDocument hof).reachable⟩
  · cases hd.symm.trans herror

theorem exists_of_toDocument (h : Reachable s) (hbound : ∀ i ∈ s.imports, i.scope? = none)
    (hp : s.Proper) {d : Document} (hd : s.toDocument = .ok d) :
    ∃ registry, ofDocument d = .ok { s with registry } ∧ Reachable { s with registry } := by
  have hreread := exists_reread_of_toDocument h hbound hd
  rwa [hp.reread] at hreread

/-- **The round trip.** Writing a scope without bound imports fails, as unsupported, exactly when
the scope or one of its elements holds what has no place in documents. Otherwise reading succeeds
with an equal scope, whose parts stand in the same order, and which is written to the same
document. -/
theorem document_round_trip (h : Reachable s) (hbound : ∀ i ∈ s.imports, i.scope? = none)
    (hp : s.Proper) :
    ((∃ e, s.toDocument = .error e) ↔ ∃ id f, s.Carries id f) ∧
      (∀ e, s.toDocument = .error e → ∃ id f, e = .unsupported id f ∧ s.Carries id f) ∧
      ∀ d, s.toDocument = .ok d → ∃ t, ofDocument d = .ok t ∧ Reachable t ∧ t.same s = true ∧
        s.same t = true ∧ t = { s with registry := t.registry } ∧ t.toDocument = .ok d := by
  refine ⟨?_, ?_, ?_⟩
  · rcases writes h.complete hp with ⟨d, hd, -, hnone⟩ | ⟨id, f, hd, hf⟩
    · simp [hd, hnone]
    · simp only [hd, Except.error.injEq, exists_eq', true_iff]
      exact ⟨id, f, hf⟩
  · intro e he
    rcases writes h.complete hp with ⟨d, hd, -, -⟩ | ⟨id, f, hd, hf⟩
    · cases he.symm.trans hd
    · cases he.symm.trans hd
      exact ⟨id, f, rfl, hf⟩
  · intro d hd
    obtain ⟨registry, hof, ht⟩ := exists_of_toDocument h hbound hp hd
    refine ⟨{ s with registry }, hof, ht, ?_, ?_, rfl, hd⟩
    · exact same_of_eq ht.complete ht.agrees.nodup_roots hbound rfl rfl rfl rfl rfl
    · exact same_of_eq h.complete h.agrees.nodup_roots hbound rfl rfl rfl rfl rfl

theorem document_round_trip_serviceTask :
    let s := (Change.addFlowElement ⟨"p"⟩ (.task (.bare ⟨"t"⟩) .webService)).after
      ((Change.addRoot (.process (.bare ⟨"p"⟩))).after (Scope.fresh ⟨"Defs"⟩ "urn:t"))
    ∃ d t, s.toDocument = .ok d ∧ ofDocument d = .ok t ∧ t.same s = true ∧ t.toDocument = .ok d := by
  intro s
  have hs : Reachable s :=
    .after _ (.task _ _) (by simp [Change.boundScope?])
      (.after _ ⟨[], [], nofun, rfl⟩ (by simp [Change.boundScope?]) (.fresh _ _))
  have himports : s.imports = [] := rfl
  have hp : s.Proper := by
    intro p hp a w heq
    have hlist : s.placed.map Placed.element =
      [.root (.process { Process.bare ⟨"p"⟩ with container := ⟨[.task (.bare ⟨"t"⟩) .webService], []⟩ }),
       .flowElement (.task (.bare ⟨"t"⟩) .webService)] := rfl
    have hmem := List.mem_map_of_mem (f := Placed.element) hp
    rw [hlist, heq] at hmem
    simp at hmem
    obtain ⟨rfl, rfl⟩ := hmem
    rintro i ⟨⟩
    simp [Implementation.Proper]
  have hd : ∃ d, s.toDocument = .ok d := ⟨_, rfl⟩
  obtain ⟨d, hd⟩ := hd
  obtain ⟨-, -, hround⟩ := document_round_trip hs (by simp [himports]) hp
  obtain ⟨t, ht, -, hsame, -, -, hagain⟩ := hround d hd
  exact ⟨d, t, hd, ht, hsame, hagain⟩

end Scope

end BpmnModel
