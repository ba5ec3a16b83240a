import BpmnModel.Proofs.Nesting

/-!
# Shared definitions, written and read back

For each kind, `writes` says that writing fails only for what documents cannot carry and that the
node is otherwise read back as the same element, `isLeaf_of_read` or `bears_of_read` what its reader
finds out about the node, and `rewrites` that what was read from a node is written again within the
room that the node had.
-/

namespace BpmnModel

variable {n : Node}

/-! ## Elements that own nothing -/

namespace EndPoint

theorem writes (e : EndPoint) : Writes e.toNode (Element.root (.endPoint e)).Carried
    (fun n => n.label = "endPoint" ∧ ofNode n = .ok e) := by
  rw [toNode, ← bind_pure (e.identity.toNode "endPoint")]
  refine .leaf "endPoint" _ rfl rfl nofun ?_
  intro h
  simp [ofNode, Identity.ofNode_eq_ok h]

theorem isLeaf_of_read {e : EndPoint} (h : ofNode n = .ok e) : n.IsLeaf e.identity ["id"] := by
  simp only [ofNode, bind_eq_ok, pure_eq_ok, Except.ok.injEq] at h
  obtain ⟨id, hid, ⟨⟩, hfinish, ⟨⟩, hcontent, identity, hi, rfl⟩ := h
  exact .of_read hid hi hfinish hcontent

theorem rewrites {e : EndPoint} (h : ofNode n = .ok e) : Rewrites 0 e.toNode n := by
  rw [toNode, ← bind_pure (Identity.toNode "endPoint" _)]
  exact .leaf "endPoint" _ (isLeaf_of_read h).identifies (by simp)

end EndPoint

namespace Message

theorem writes (m : Message) : Writes m.toNode (Element.root (.message m)).Carried
    (fun n => n.label = "message" ∧ ofNode n = .ok m) := by
  refine .leaf "message" _ rfl rfl nofun ?_
  intro h
  simp [ofNode, Identity.ofNode_eq_ok h]

theorem isLeaf_of_read {m : Message} (h : ofNode n = .ok m) :
    n.IsLeaf m.identity ["id", "name", "itemRef"] := by
  simp only [ofNode, bind_eq_ok, pure_eq_ok, Except.ok.injEq] at h
  obtain ⟨id, hid, name, -, itemRef, -, ⟨⟩, hfinish, ⟨⟩, hcontent, identity, hi, rfl⟩ := h
  exact .of_read hid hi hfinish hcontent

theorem rewrites {m : Message} (h : ofNode n = .ok m) : Rewrites 0 m.toNode n :=
  .leaf "message" _ (isLeaf_of_read h).identifies (by simp)

end Message

namespace ItemDefinition

theorem writes (d : ItemDefinition) : Writes d.toNode (Element.root (.itemDefinition d)).Carried
    (fun n => n.label = "itemDefinition" ∧ ofNode n = .ok d) := by
  refine .leaf "itemDefinition" _ rfl rfl nofun ?_
  intro h
  simp [ofNode, Identity.ofNode_eq_ok h]

theorem isLeaf_of_read {d : ItemDefinition} (h : ofNode n = .ok d) :
    n.IsLeaf d.identity ["id", "itemKind", "isCollection", "structureRef"] := by
  simp only [ofNode, bind_eq_ok, pure_eq_ok, Except.ok.injEq] at h
  obtain ⟨id, hid, identity, hi, -, -, -, -, -, -, ⟨⟩, hfinish, ⟨⟩, hcontent, rfl⟩ := h
  exact .of_read hid hi hfinish hcontent

theorem rewrites {d : ItemDefinition} (h : ofNode n = .ok d) : Rewrites 0 d.toNode n :=
  .leaf "itemDefinition" _ (isLeaf_of_read h).identifies (by simp)

end ItemDefinition

namespace ErrorDefinition

theorem writes (e : ErrorDefinition) : Writes e.toNode (Element.root (.error e)).Carried
    (fun n => n.label = "error" ∧ ofNode n = .ok e) := by
  refine .leaf "error" _ rfl rfl nofun ?_
  intro h
  simp [ofNode, Identity.ofNode_eq_ok h]

theorem isLeaf_of_read {e : ErrorDefinition} (h : ofNode n = .ok e) :
    n.IsLeaf e.identity ["id", "name", "errorCode", "structureRef"] := by
  simp only [ofNode, bind_eq_ok, pure_eq_ok, Except.ok.injEq] at h
  obtain ⟨id, hid, -, -, -, -, -, -, ⟨⟩, hfinish, ⟨⟩, hcontent, identity, hi, rfl⟩ := h
  exact .of_read hid hi hfinish hcontent

theorem rewrites {e : ErrorDefinition} (h : ofNode n = .ok e) : Rewrites 0 e.toNode n :=
  .leaf "error" _ (isLeaf_of_read h).identifies (by simp)

end ErrorDefinition

namespace Escalation

theorem writes (e : Escalation) : Writes e.toNode (Element.root (.escalation e)).Carried
    (fun n => n.label = "escalation" ∧ ofNode n = .ok e) := by
  refine .leaf "escalation" _ rfl rfl nofun ?_
  intro h
  simp [ofNode, Identity.ofNode_eq_ok h]

theorem isLeaf_of_read {e : Escalation} (h : ofNode n = .ok e) :
    n.IsLeaf e.identity ["id", "name", "escalationCode", "structureRef"] := by
  simp only [ofNode, bind_eq_ok, pure_eq_ok, Except.ok.injEq] at h
  obtain ⟨id, hid, -, -, -, -, -, -, ⟨⟩, hfinish, ⟨⟩, hcontent, identity, hi, rfl⟩ := h
  exact .of_read hid hi hfinish hcontent

theorem rewrites {e : Escalation} (h : ofNode n = .ok e) : Rewrites 0 e.toNode n :=
  .leaf "escalation" _ (isLeaf_of_read h).identifies (by simp)

end Escalation

namespace ResourceParameter

theorem writes (p : ResourceParameter) : Writes p.toNode (Element.resourceParameter p).Carried
    (fun n => n.label = "resourceParameter" ∧ ofNode n = .ok p) := by
  refine .leaf "resourceParameter" _ rfl rfl nofun ?_
  intro h
  simp [ofNode, Identity.ofNode_eq_ok h]

theorem isLeaf_of_read {p : ResourceParameter} (h : ofNode n = .ok p) :
    n.IsLeaf p.identity ["id", "name", "type", "isRequired"] := by
  simp only [ofNode, bind_eq_ok, pure_eq_ok, Except.ok.injEq] at h
  obtain ⟨id, hid, -, -, -, -, -, -, ⟨⟩, hfinish, ⟨⟩, hcontent, identity, hi, rfl⟩ := h
  exact .of_read hid hi hfinish hcontent

theorem rewrites {p : ResourceParameter} (h : ofNode n = .ok p) : Rewrites 0 p.toNode n :=
  .leaf "resourceParameter" _ (isLeaf_of_read h).identifies (by simp)

end ResourceParameter

namespace CategoryValue

theorem writes (v : CategoryValue) : Writes v.toNode (Element.categoryValue v).Carried
    (fun n => n.label = "categoryValue" ∧ ofNode n = .ok v) := by
  refine .leaf "categoryValue" _ rfl rfl nofun ?_
  intro h
  simp [ofNode, Identity.ofNode_eq_ok h]

theorem isLeaf_of_read {v : CategoryValue} (h : ofNode n = .ok v) :
    n.IsLeaf v.identity ["id", "value"] := by
  simp only [ofNode, bind_eq_ok, pure_eq_ok, Except.ok.injEq] at h
  obtain ⟨id, hid, -, -, ⟨⟩, hfinish, ⟨⟩, hcontent, identity, hi, rfl⟩ := h
  exact .of_read hid hi hfinish hcontent

theorem rewrites {v : CategoryValue} (h : ofNode n = .ok v) : Rewrites 0 v.toNode n :=
  .leaf "categoryValue" _ (isLeaf_of_read h).identifies (by simp)

end CategoryValue

namespace Operation

theorem writes (o : Operation) : Writes o.toNode (Element.operation o).Carried
    (fun n => n.label = "operation" ∧ ofNode n = .ok o) := by
  refine .leaf "operation" _ rfl rfl nofun ?_
  intro h
  simp [ofNode, Identity.ofNode_eq_ok h]

theorem isLeaf_of_read {o : Operation} (h : ofNode n = .ok o) :
    n.IsLeaf o.identity
      ["id", "name", "inMessageRef", "outMessageRef", "errorRefs", "implementationRef"] := by
  simp only [ofNode, bind_eq_ok, pure_eq_ok, Except.ok.injEq] at h
  obtain ⟨id, hid, -, -, -, -, identity, hi, -, -, -, -, -, -, ⟨⟩, hfinish, ⟨⟩, hcontent, rfl⟩ := h
  exact .of_read hid hi hfinish hcontent

theorem rewrites {o : Operation} (h : ofNode n = .ok o) : Rewrites 0 o.toNode n :=
  .leaf "operation" _ (isLeaf_of_read h).identifies (by simp)

end Operation

namespace Relationship

theorem of_eq (r : Relationship) :
    of r.identity r.type r.direction r.sources r.targets = .ok r := by
  rw [of, dif_neg r.sources_ne_nil, dif_neg r.targets_ne_nil]

theorem identity_of {identity : Identity} {type : String} {direction : RelationshipDirection}
    {sources targets : List (Ref .anyElement)} {r : Relationship}
    (h : of identity type direction sources targets = .ok r) : r.identity = identity := by
  unfold of at h
  split at h
  · cases h
  · split at h <;> cases h
    rfl

theorem writes (r : Relationship) : Writes r.toNode (Element.relationship r).Carried
    (fun n => n.label = "relationship" ∧ ofNode n = .ok r) := by
  refine .leaf "relationship" _ rfl rfl nofun ?_
  intro h
  simp [ofNode, Identity.ofNode_eq_ok h, of_eq]

theorem isLeaf_of_read {r : Relationship} (h : ofNode n = .ok r) :
    n.IsLeaf r.identity ["id", "type", "direction", "sources", "targets"] := by
  simp only [ofNode, bind_eq_ok, checked_eq_ok] at h
  obtain ⟨id, hid, type, -, direction, -, sources, -, targets, -, ⟨⟩, hfinish, ⟨⟩, hcontent,
    identity, hi, hof⟩ := h
  rw [← identity_of hof] at hi
  exact .of_read hid hi hfinish hcontent

theorem rewrites {r : Relationship} (h : ofNode n = .ok r) : Rewrites 0 r.toNode n :=
  .leaf "relationship" _ (isLeaf_of_read h).identifies (by simp)

end Relationship

/-! ## Elements with children of one kind -/

namespace Node

variable {α : Type} {label : String} {read : Node → Reading α} {xs : List α}

/-- Children of one kind are read back from whatever node has them as its content. -/
theorem only_eq_ok {ns : List Node}
    (h : List.Forall₂ (fun x c => c.label = label ∧ read c = .ok x) xs ns) (hn : n.content = ns) :
    n.only label read = .ok xs := by
  subst hn
  refine mapM_eq_ok_of_forall₂ (h.imp fun x c hc => ?_)
  rw [if_pos hc.1, hc.2]

end Node

namespace Resource

theorem writes (r : Resource) : Writes r.toNode (Element.root (.resource r)).Carried
    (fun n => n.label = "resource" ∧ ofNode n = .ok r) := by
  refine .branch "resource" _ rfl rfl nofun (fun p _ => p.writes) ?_
  intro h ns hns
  have hdoc := Node.allContent_of_forall₂ hns (by decide)
  simp [ofNode, Identity.ofNode_eq_ok h, hdoc, Node.only_eq_ok hns]

theorem bears_of_read {r : Resource} (h : ofNode n = .ok r) :
    n.Bears r.identity ["id", "name"] ∧
      n.only "resourceParameter" ResourceParameter.ofNode = .ok r.parameters := by
  simp only [ofNode, bind_eq_ok, pure_eq_ok, Except.ok.injEq] at h
  obtain ⟨id, hid, -, -, ⟨⟩, hfinish, parameters, hparameters, identity, hi, rfl⟩ := h
  exact ⟨.of_read hid hi hfinish, hparameters⟩

theorem rewrites {r : Resource} (h : ofNode n = .ok r) : Rewrites 0 r.toNode n := by
  obtain ⟨hbears, hparameters⟩ := bears_of_read h
  exact .branch "resource" _ hbears.identifies hparameters (fun _ _ => ResourceParameter.rewrites)
    (by simp +contextual)

end Resource

namespace Category

theorem writes (c : Category) : Writes c.toNode (Element.root (.category c)).Carried
    (fun n => n.label = "category" ∧ ofNode n = .ok c) := by
  refine .branch "category" _ rfl rfl nofun (fun v _ => v.writes) ?_
  intro h ns hns
  have hdoc := Node.allContent_of_forall₂ hns (by decide)
  simp [ofNode, Identity.ofNode_eq_ok h, hdoc, Node.only_eq_ok hns]

theorem bears_of_read {c : Category} (h : ofNode n = .ok c) :
    n.Bears c.identity ["id", "name"] ∧
      n.only "categoryValue" CategoryValue.ofNode = .ok c.values := by
  simp only [ofNode, bind_eq_ok, pure_eq_ok, Except.ok.injEq] at h
  obtain ⟨id, hid, -, -, ⟨⟩, hfinish, values, hvalues, identity, hi, rfl⟩ := h
  exact ⟨.of_read hid hi hfinish, hvalues⟩

theorem rewrites {c : Category} (h : ofNode n = .ok c) : Rewrites 0 c.toNode n := by
  obtain ⟨hbears, hvalues⟩ := bears_of_read h
  exact .branch "category" _ hbears.identifies hvalues (fun _ _ => CategoryValue.rewrites)
    (by simp +contextual)

end Category

theorem Roster.ofList_items {α : Type} {name : α → Id} (r : Roster α name) :
    ofList r.items = r := by
  have hitems : (ofList r.items : Roster α name).items = r.items := items_ofList r.items
  obtain ⟨items, directory, hd⟩ := r
  generalize ofList items = r' at hitems
  obtain ⟨items', directory', hd'⟩ := r'
  cases hitems
  subst hd hd'
  rfl

namespace Interface

theorem of_eq (i : Interface) :
    of i.identity i.name i.operations.items i.implementationRef = .ok i := by
  rw [of, dif_neg i.operations_ne_nil]
  simp only [Roster.ofList_items]

theorem of_eq_ok {identity : Identity} {name : String} {operations : List Operation}
    {implementationRef : Option String} {i : Interface}
    (h : of identity name operations implementationRef = .ok i) :
    i.identity = identity ∧ i.operations.items = operations := by
  unfold of at h
  split at h
  · cases h
  · cases h
    exact ⟨rfl, Roster.items_ofList operations⟩

theorem writes (i : Interface) : Writes i.toNode (Element.root (.interface i)).Carried
    (fun n => n.label = "interface" ∧ ofNode n = .ok i) := by
  refine .branch "interface" _ rfl rfl nofun (fun o _ => o.writes) ?_
  intro h ns hns
  have hdoc := Node.allContent_of_forall₂ hns (by decide)
  simp [ofNode, Identity.ofNode_eq_ok h, hdoc, Node.only_eq_ok hns, of_eq]

theorem bears_of_read {i : Interface} (h : ofNode n = .ok i) :
    n.Bears i.identity ["id", "name", "implementationRef"] ∧
      n.only "operation" Operation.ofNode = .ok i.operations.items := by
  simp only [ofNode, bind_eq_ok, checked_eq_ok] at h
  obtain ⟨id, hid, name, -, ref, -, ⟨⟩, hfinish, operations, hoperations, identity, hi, hof⟩ := h
  obtain ⟨rfl, rfl⟩ := of_eq_ok hof
  exact ⟨.of_read hid hi hfinish, hoperations⟩

theorem rewrites {i : Interface} (h : ofNode n = .ok i) : Rewrites 0 i.toNode n := by
  obtain ⟨hbears, hoperations⟩ := bears_of_read h
  exact .branch "interface" _ hbears.identifies hoperations (fun _ _ => Operation.rewrites)
    (by simp +contextual)

end Interface

/-! ## Expressions and correlation properties -/

namespace FormalExpression

@[simp]
theorem label_toNode (label : String) (e : FormalExpression) : (e.toNode label).label = label := by
  simp [toNode]

@[simp]
theorem ofNode_toNode (label : String) (e : FormalExpression) :
    Expression.ofNode (e.toNode label) = .ok (.formal e) := by
  simp [toNode, Expression.ofNode]

end FormalExpression

namespace Expression

@[simp]
theorem label_toNode (label : String) (e : Expression) : (e.toNode label).label = label := by
  cases e <;> simp [toNode]

@[simp]
theorem ofNode_toNode (label : String) (e : Expression) : ofNode (e.toNode label) = .ok e := by
  cases e with
  | informal body => simp [toNode, ofNode]
  | formal e => simp [toNode]

/-- An expression that was read from a node fits there under any label. -/
theorem fits_toNode {e : Expression} (h : ofNode n = .ok e) {k : Nat} (hn : n.Fits k)
    (label : String) : (e.toNode label).Fits k := by
  obtain ⟨body, hbody, -⟩ := bind_eq_ok.mp h
  obtain ⟨j, rfl⟩ := hn.exists_of_text hbody
  cases e with
  | informal body => simp [toNode]
  | formal e => simp [toNode, FormalExpression.toNode]

end Expression

namespace RetrievalExpression

@[simp]
theorem label_toNode (e : RetrievalExpression) :
    e.toNode.label = "correlationPropertyRetrievalExpression" := by
  simp [toNode]

@[simp]
theorem ofNode_toNode (owner : Id) (e : RetrievalExpression) : ofNode owner e.toNode = .ok e := by
  simp [toNode, ofNode, pathOfNodes]

/-- The path of a retrieval expression was read from a child. -/
theorem exists_of_pathOfNodes {owner : Id} {parent : Node} {ns : List Node}
    {found : Option FormalExpression} {path : FormalExpression}
    (h : pathOfNodes owner parent ns found = .ok path) :
    found = some path ∨ ∃ c ∈ ns, Expression.ofNode c = .ok (.formal path) := by
  induction ns generalizing found with
  | nil =>
    cases found with
    | none => cases h
    | some e =>
      cases h
      exact .inl rfl
  | cons c ns ih =>
    rw [pathOfNodes] at h
    split at h
    · obtain ⟨e, he, h⟩ := bind_eq_ok.mp h
      cases e with
      | informal body => cases h
      | formal e =>
        rcases ih h with heq | ⟨d, hd, hread⟩
        · cases heq
          exact .inr ⟨c, List.mem_cons_self, he⟩
        · exact .inr ⟨d, List.mem_cons_of_mem c hd, hread⟩
    · cases h

theorem fits_toNode {owner : Id} {e : RetrievalExpression} (h : ofNode owner n = .ok e) {k : Nat}
    (hn : n.Fits k) : e.toNode.Fits k := by
  simp only [ofNode, bind_eq_ok, pure_eq_ok, Except.ok.injEq] at h
  obtain ⟨ref, -, -, -, path, hpath, rfl⟩ := h
  rcases exists_of_pathOfNodes hpath with heq | ⟨c, hc, hread⟩
  · cases heq
  · obtain ⟨j, rfl⟩ := hn.exists_of_child hc
    have hfits := Expression.fits_toNode hread (hn.child hc) "messagePath"
    rw [Expression.toNode] at hfits
    simp [toNode, hfits]

end RetrievalExpression

namespace CorrelationProperty

theorem of_eq (p : CorrelationProperty) : of p.identity p.name p.type p.retrievals = .ok p := by
  rw [of, dif_neg p.retrievals_ne_nil]

theorem of_eq_ok {identity : Identity} {name : Option String}
    {type : Option (RefTo .itemDefinition)} {retrievals : List RetrievalExpression}
    {p : CorrelationProperty} (h : of identity name type retrievals = .ok p) :
    p.identity = identity ∧ p.retrievals = retrievals := by
  unfold of at h
  split at h
  · cases h
  · cases h
    exact ⟨rfl, rfl⟩

theorem writes (p : CorrelationProperty) :
    Writes p.toNode (Element.root (.correlationProperty p)).Carried
      (fun n => n.label = "correlationProperty" ∧ ofNode n = .ok p) := by
  refine .leaf "correlationProperty" _ rfl rfl nofun ?_
  intro h
  have hns : List.Forall₂ (fun e c => c.label = "correlationPropertyRetrievalExpression" ∧
      RetrievalExpression.ofNode p.identity.id c = .ok e) p.retrievals
      (p.retrievals.map RetrievalExpression.toNode) := by
    rw [List.forall₂_map_right_iff, List.forall₂_same]
    simp
  have hdoc := Node.allContent_of_forall₂ hns (by decide)
  simp [ofNode, Identity.ofNode_eq_ok h, hdoc, Node.only_eq_ok hns, of_eq]

theorem bears_of_read {p : CorrelationProperty} (h : ofNode n = .ok p) :
    n.Bears p.identity ["id", "name", "type"] ∧
      n.only "correlationPropertyRetrievalExpression" (RetrievalExpression.ofNode p.identity.id) =
        .ok p.retrievals := by
  simp only [ofNode, bind_eq_ok, checked_eq_ok] at h
  obtain ⟨id, hid, name, -, type, -, ⟨⟩, hfinish, retrievals, hretrievals, identity, hi, hof⟩ := h
  obtain ⟨rfl, rfl⟩ := of_eq_ok hof
  have hbears : n.Bears p.identity ["id", "name", "type"] := .of_read hid hi hfinish
  cases hid.symm.trans hbears.identifies.id
  exact ⟨hbears, hretrievals⟩

theorem rewrites {p : CorrelationProperty} (h : ofNode n = .ok p) : Rewrites 0 p.toNode n := by
  obtain ⟨hbears, hretrievals⟩ := bears_of_read h
  refine .leaf "correlationProperty" _ hbears.identifies ?_
  intro k _ hk m hm
  have hchildren : ∀ c ∈ p.retrievals.map RetrievalExpression.toNode, c.Fits k := by
    intro c hc
    obtain ⟨e, he, rfl⟩ := List.mem_map.mp hc
    obtain ⟨c, hc, hread⟩ := Node.exists_of_only hretrievals he
    exact RetrievalExpression.fits_toNode hread (hk.child hc)
  simpa [hm] using hchildren

end CorrelationProperty

end BpmnModel
