import BpmnModel.Proofs.Definitions

/-!
# Conversation nodes, written and read back

Conversation nodes nest, so what holds of them is proved along the nesting
(`ConversationNode.nodes_induction`).  Of a node that was read, `ConversationNode.ReadAt` says what
its sort leaves below it.
-/

namespace BpmnModel

variable {n : Node}

namespace ConversationNode

theorem sizeOf_lt_of_mem_nodes {n m : ConversationNode} (h : m ∈ n.nodes) :
    sizeOf m < sizeOf n := by
  cases n with
  | subConversation b fs ns =>
    have hlt : sizeOf m < sizeOf ns := List.sizeOf_lt_of_mem h
    rw [subConversation.sizeOf_spec]
    omega
  | conversation b fs => cases h
  | callConversation b called associations => cases h

/-- What holds of a node if it holds of the nodes nested in it holds of all nodes. -/
theorem nodes_induction {P : ConversationNode → Prop}
    (step : ∀ n, (∀ m ∈ n.nodes, P m) → P n) (n : ConversationNode) : P n := by
  apply step n
  intro m hm
  have hlt : sizeOf m < sizeOf n := sizeOf_lt_of_mem_nodes hm
  exact nodes_induction step m
termination_by n

theorem allToNodes_eq (cs : List ConversationNode) : allToNodes cs = cs.mapM toNode := by
  induction cs with
  | nil => rfl
  | cons c cs ih => rw [allToNodes, ih, List.mapM_cons]

/-- The reader without the parts of the node spelled out. -/
theorem ofNode_eq (n : Node) : ofNode n = (do
    let id ← n.id
    let participantRefs ← n.refs "participantRefs"
    let identity ← Identity.ofNode id n
    let name ← n.text? "name"
    let messageFlowRefs ← n.refs "messageFlowRefs"
    let build (sort : ConversationSort) : Reading ConversationNode :=
      checked (ConversationNode.of identity name participantRefs messageFlowRefs [] sort)
    match n.label with
    | "subConversation" =>
      let nodes ← allOfNodes n.label n.children
      n.finish fields
      build (.subConversation nodes)
    | "callConversation" =>
      n.noContent
      let called ← n.ref? "calledCollaborationRef"
      n.finish (fields ++ ["calledCollaborationRef"])
      build (.callConversation called [])
    | _ =>
      n.noContent
      n.finish fields
      build .conversation) := by
  obtain ⟨label, attributes, children⟩ := n
  exact ofNode.eq_1 label attributes children

theorem allOfNodes_append_documentation (parent : String) (ds : List Documentation)
    (ns : List Node) :
    allOfNodes parent (ds.map Documentation.toNode ++ ns) = allOfNodes parent ns := by
  induction ds with
  | nil => rfl
  | cons d ds ih => rw [List.map_cons, List.cons_append, allOfNodes]; simp [ih]

/-- The node is that of a conversation node and is read as it. -/
def ReadFrom (c : ConversationNode) (n : Node) : Prop :=
  isLabel n.label = true ∧ ofNode n = .ok c

theorem ReadFrom.not_documentation {c : ConversationNode} (h : c.ReadFrom n) :
    n.isDocumentation = false := by
  by_contra hdoc
  have hlabel : n.label = "documentation" := by simpa [Node.isDocumentation] using hdoc
  have := h.1
  rw [hlabel] at this
  exact absurd this (by decide)

theorem allOfNodes_eq_ok (parent : String) {cs : List ConversationNode} {ns : List Node}
    (h : List.Forall₂ ReadFrom cs ns) : allOfNodes parent ns = .ok cs := by
  induction h with
  | nil => rw [allOfNodes]; rfl
  | cons hc _ ih => rw [allOfNodes]; simp [hc.not_documentation, hc.1, hc.2, ih]

theorem exists_of_allOfNodes {parent : String} {ns : List Node} {cs : List ConversationNode}
    (h : allOfNodes parent ns = .ok cs) {c : ConversationNode} (hc : c ∈ cs) :
    ∃ m ∈ ns, ofNode m = .ok c := by
  induction ns generalizing cs with
  | nil =>
    rw [allOfNodes] at h
    cases h
    cases hc
  | cons n ns ih =>
    rw [allOfNodes] at h
    split at h
    · obtain ⟨m, hm, hread⟩ := ih h hc
      exact ⟨m, List.mem_cons_of_mem n hm, hread⟩
    · split at h
      · simp only [bind_eq_ok, pure_eq_ok, Except.ok.injEq] at h
        obtain ⟨d, hd, ds, hds, rfl⟩ := h
        rcases List.mem_cons.mp hc with rfl | hc
        · exact ⟨n, List.mem_cons_self, hd⟩
        · obtain ⟨m, hm, hread⟩ := ih hds hc
          exact ⟨m, List.mem_cons_of_mem n hm, hread⟩
      · cases h

/-- The node that `baseToNode` makes if nothing is in the way. -/
def baseNode (label : String) (c : ConversationNode) : Node :=
  (((Node.ofIdentity label c.identity).setText? "name" c.base.name).setRefs "participantRefs"
    c.base.participantRefs).setRefs "messageFlowRefs" c.messageFlowRefs

/-- What keeps `baseToNode` from writing a node: keys are looked at first. -/
def BaseCarries (c : ConversationNode) (id : Id) (f : Feature) : Prop :=
  id = c.id ∧ ((f = .correlationKeys ∧ c.base.correlationKeys ≠ []) ∨
    (f = .extensionValues ∧ c.base.correlationKeys = [] ∧ c.identity.extensionValues ≠ []))

theorem plain_of_not_baseCarries {c : ConversationNode} (h : ∀ id f, ¬ c.BaseCarries id f) :
    c.base.correlationKeys = [] ∧ c.identity.extensionValues = [] := by
  have hk : c.base.correlationKeys = [] := by
    by_contra hk
    exact h c.id .correlationKeys ⟨rfl, .inl ⟨rfl, hk⟩⟩
  refine ⟨hk, ?_⟩
  by_contra hv
  exact h c.id .extensionValues ⟨rfl, .inr ⟨rfl, hk, hv⟩⟩

theorem baseToNode_writes (label : String) (c : ConversationNode) :
    Writes (baseToNode label c) c.BaseCarries
      (fun n => n = baseNode label c ∧ c.base.correlationKeys = [] ∧
        c.identity.extensionValues = []) := by
  unfold baseToNode
  cases hk : c.base.correlationKeys with
  | cons k ks => exact .inr ⟨c.id, .correlationKeys, rfl, rfl, .inl ⟨rfl, by simp [hk]⟩⟩
  | nil =>
    refine ((c.identity.writes label).map fun n hn => ?_).congr fun id f => ?_
    · obtain ⟨rfl, hv⟩ := hn
      exact ⟨rfl, rfl, hv⟩
    · simp [BaseCarries, hk, ConversationNode.id, and_comm]

/-- A node whose base is that of another, without keys, is rebuilt from the fields. -/
theorem of_conversation {b : ConversationBase} (hk : b.correlationKeys = [])
    (fs : List (RefTo .messageFlow)) :
    of b.identity b.name b.participantRefs fs [] .conversation = .ok (conversation b fs) := by
  obtain ⟨identity, name, refs, keys, hle⟩ := b
  cases hk
  rw [of, dif_pos hle]

theorem of_subConversation {b : ConversationBase} (hk : b.correlationKeys = [])
    (fs : List (RefTo .messageFlow)) (ns : List ConversationNode) :
    of b.identity b.name b.participantRefs fs [] (.subConversation ns) =
      .ok (subConversation b fs ns) := by
  obtain ⟨identity, name, refs, keys, hle⟩ := b
  cases hk
  rw [of, dif_pos hle]

theorem of_callConversation {b : ConversationBase} (hk : b.correlationKeys = [])
    (called : Option (Ref .anyCollaboration)) :
    of b.identity b.name b.participantRefs [] [] (.callConversation called []) =
      .ok (callConversation b called []) := by
  obtain ⟨identity, name, refs, keys, hle⟩ := b
  cases hk
  rw [of, dif_pos hle]
  rfl

/-- A node of the tree carries what its base carries and what the nodes nested in it do. -/
theorem carried_iff (c : ConversationNode) (id : Id) (f : Feature) :
    (Element.conversationNode c).Carried id f ↔
      (id = c.id ∧ (Element.conversationNode c).Carries f) ∨
        (∃ m ∈ c.nodes, (Element.conversationNode m).Carried id f) ∨
          ∃ k ∈ c.base.correlationKeys, (Element.correlationKey k).Carried id f := by
  rw [Element.carried_iff, Element.children]
  simp only [List.mem_append, or_and_right, exists_or, Element.mem_children_map]
  rfl

/-- Whether something is carried at a node is a matter of four lists. -/
theorem not_carried {c : ConversationNode} (hk : c.base.correlationKeys = [])
    (hv : c.identity.extensionValues = [])
    (hcall : ∀ b called associations, c = callConversation b called associations → associations = [])
    (hnodes : ∀ m ∈ c.nodes, ∀ id f, ¬ (Element.conversationNode m).Carried id f) (id : Id)
    (f : Feature) : ¬ (Element.conversationNode c).Carried id f := by
  rw [carried_iff]
  rintro (⟨-, ⟨-, h⟩ | h⟩ | ⟨m, hm, h⟩ | ⟨k, h, -⟩)
  · exact h hv
  · cases h with
    | conversationKeys h => exact h hk
    | callMappings h => exact h (hcall _ _ _ rfl)
  · exact hnodes m hm id f h
  · rw [hk] at h
    cases h

/-- What the base of a node carries is carried at the node. -/
theorem carried_of_base {c : ConversationNode} {id : Id} {f : Feature} (h : c.BaseCarries id f) :
    (Element.conversationNode c).Carried id f := by
  rw [carried_iff]
  obtain ⟨rfl, ⟨rfl, hk⟩ | ⟨rfl, -, hv⟩⟩ := h
  · exact .inl ⟨rfl, .inr (.conversationKeys hk)⟩
  · exact .inl ⟨rfl, .inl ⟨rfl, hv⟩⟩

theorem readFrom_conversation {b : ConversationBase} {fs : List (RefTo .messageFlow)}
    (hk : b.correlationKeys = []) (hv : b.identity.extensionValues = []) :
    (conversation b fs).ReadFrom (baseNode "conversation" (conversation b fs)) := by
  refine ⟨by simp [baseNode, isLabel], ?_⟩
  rw [ofNode_eq]
  simp [baseNode, base, identity, messageFlowRefs, fields, Identity.ofNode_eq_ok hv,
    of_conversation hk]

theorem readFrom_subConversation {b : ConversationBase} {fs : List (RefTo .messageFlow)}
    {cs : List ConversationNode} {ns : List Node} (hk : b.correlationKeys = [])
    (hv : b.identity.extensionValues = []) (hns : List.Forall₂ ReadFrom cs ns) :
    (subConversation b fs cs).ReadFrom
      ((baseNode "subConversation" (subConversation b fs cs)).pushAll ns) := by
  have hdoc : Node.AllContent ns := forall_of_forall₂ hns fun _ _ => ReadFrom.not_documentation
  refine ⟨by simp [baseNode, isLabel], ?_⟩
  rw [ofNode_eq]
  simp [baseNode, base, identity, messageFlowRefs, fields, Identity.ofNode_eq_ok hv, hdoc,
    allOfNodes_append_documentation, allOfNodes_eq_ok _ hns, of_subConversation hk]

theorem readFrom_callConversation {b : ConversationBase}
    {called : Option (Ref .anyCollaboration)} (hk : b.correlationKeys = [])
    (hv : b.identity.extensionValues = []) :
    (callConversation b called []).ReadFrom
      ((baseNode "callConversation" (callConversation b called [])).setRef?
        "calledCollaborationRef" called) := by
  refine ⟨by simp [baseNode, isLabel], ?_⟩
  rw [ofNode_eq]
  simp [baseNode, base, identity, messageFlowRefs, fields, Identity.ofNode_eq_ok hv,
    of_callConversation hk]

theorem writes (c : ConversationNode) :
    Writes c.toNode (Element.conversationNode c).Carried c.ReadFrom := by
  induction c using nodes_induction with
  | step c ih =>
    cases c with
    | conversation b fs =>
      rw [toNode]
      refine ((baseToNode_writes _ _).extend (fun id f => carried_of_base) ?_).imp ?_
      · rintro _ ⟨rfl, hk, hv⟩ -
        exact not_carried hk hv nofun nofun
      · rintro _ ⟨rfl, hk, hv⟩
        exact readFrom_conversation hk hv
    | subConversation b fs ns =>
      rw [toNode, allToNodes_eq]
      refine Writes.extend ((baseToNode_writes _ _).bind fun n hn =>
        (Writes.mapM fun m hm => ih m hm).map fun ns hns => ?_) ?_ ?_
      · obtain ⟨rfl, hk, hv⟩ := hn
        exact readFrom_subConversation hk hv hns
      · rintro id f (hf | ⟨m, hm, hf⟩)
        · exact carried_of_base hf
        · exact (carried_iff _ _ _).mpr (.inr (.inl ⟨m, hm, hf⟩))
      · intro n _ hno
        obtain ⟨hk, hv⟩ := plain_of_not_baseCarries fun id f hf => hno id f (.inl hf)
        exact not_carried hk hv nofun fun m hm id f hf => hno id f (.inr ⟨m, hm, hf⟩)
    | callConversation b called associations =>
      rw [toNode]
      cases associations with
      | nil =>
        refine ((baseToNode_writes _ _).map fun n hn => ?_).extend (fun id f => carried_of_base) ?_
        · obtain ⟨rfl, hk, hv⟩ := hn
          exact readFrom_callConversation hk hv
        · intro n _ hno
          obtain ⟨hk, hv⟩ := plain_of_not_baseCarries hno
          exact not_carried hk hv (fun b called as heq => by cases heq; rfl) nofun
      | cons a as =>
        rcases baseToNode_writes "callConversation" (callConversation b called (a :: as)) with
          ⟨n, hn, -, -⟩ | ⟨id, f, hn, hf⟩
        · rw [hn]
          refine .inr ⟨b.identity.id, .associationMappings, rfl, (carried_iff _ _ _).mpr ?_⟩
          exact .inl ⟨rfl, .inr (.callMappings (by simp))⟩
        · rw [hn]
          exact .inr ⟨id, f, rfl, carried_of_base hf⟩

/-- The conversation node of a sort. -/
def ofSort (b : ConversationBase) (fs : List (RefTo .messageFlow)) :
    ConversationSort → ConversationNode
  | .conversation => conversation b fs
  | .subConversation nodes => subConversation b fs nodes
  | .callConversation called associations => callConversation b called associations

/-- A node that was built without keys has none. -/
theorem of_eq_ok {identity : Identity} {name : Option String}
    {refs : List (RefTo .participant)} {fs : List (RefTo .messageFlow)} {sort : ConversationSort}
    {c : ConversationNode} (h : of identity name refs fs [] sort = .ok c) :
    ∃ b : ConversationBase, b.identity = identity ∧ b.correlationKeys = [] ∧
      c = ofSort b fs sort := by
  unfold of at h
  split at h
  · rename_i hle
    refine ⟨⟨identity, name, refs, [], hle⟩, rfl, rfl, ?_⟩
    cases sort with
    | conversation => cases h; rfl
    | subConversation nodes => cases h; rfl
    | callConversation called associations =>
      simp only at h
      split at h <;> cases h
      rfl
  · cases h

/-- What reading establishes: a document holds no keys and no mappings. -/
inductive ReadAt : ConversationNode → Node → Prop where
  | conversation {b : ConversationBase} {fs : List (RefTo .messageFlow)} {n : Node}
    (label : n.label ≠ "subConversation" ∧ n.label ≠ "callConversation")
    (keys : (conversation b fs).base.correlationKeys = [])
    (leaf : n.IsLeaf (conversation b fs).identity fields) : ReadAt (conversation b fs) n
  | subConversation {b : ConversationBase} {fs : List (RefTo .messageFlow)}
    {nodes : List ConversationNode} {n : Node} (label : n.label = "subConversation")
    (keys : (subConversation b fs nodes).base.correlationKeys = [])
    (bears : n.Bears (subConversation b fs nodes).identity fields)
    (nested : allOfNodes n.label n.children = .ok nodes) : ReadAt (subConversation b fs nodes) n
  | callConversation {b : ConversationBase} {called : Option (Ref .anyCollaboration)} {n : Node}
    (label : n.label = "callConversation")
    (keys : (callConversation b called []).base.correlationKeys = [])
    (leaf : n.IsLeaf (callConversation b called []).identity
      (fields ++ ["calledCollaborationRef"])) : ReadAt (callConversation b called []) n

theorem readAt_of_read {c : ConversationNode} (h : ofNode n = .ok c) : c.ReadAt n := by
  rw [ofNode_eq] at h
  simp only [bind_eq_ok] at h
  obtain ⟨id, hid, refs, -, identity, hi, name, -, fs, -, h⟩ := h
  split at h
  · rename_i hlabel
    simp only [bind_eq_ok, checked_eq_ok] at h
    obtain ⟨nodes, hnodes, ⟨⟩, hfinish, hof⟩ := h
    obtain ⟨b, rfl, hkeys, rfl⟩ := of_eq_ok hof
    exact .subConversation hlabel hkeys (.of_read hid hi hfinish) hnodes
  · rename_i hlabel
    simp only [bind_eq_ok, checked_eq_ok] at h
    obtain ⟨⟨⟩, hcontent, called, -, ⟨⟩, hfinish, hof⟩ := h
    obtain ⟨b, rfl, hkeys, rfl⟩ := of_eq_ok hof
    exact .callConversation hlabel hkeys (.of_read hid hi hfinish hcontent)
  · rename_i hsub hcall
    simp only [bind_eq_ok, checked_eq_ok] at h
    obtain ⟨⟨⟩, hcontent, ⟨⟩, hfinish, hof⟩ := h
    obtain ⟨b, rfl, hkeys, rfl⟩ := of_eq_ok hof
    exact .conversation ⟨hsub, hcall⟩ hkeys (.of_read hid hi hfinish hcontent)

theorem baseToNode_eq (label : String) {c : ConversationNode} (hkeys : c.base.correlationKeys = [])
    (hi : n.Identifies c.identity) : baseToNode label c = .ok (baseNode label c) := by
  rw [baseToNode, hkeys, Identity.toNode, hi.extensionValues]
  rfl

theorem fits_baseNode (label : String) {c : ConversationNode} (hi : n.Identifies c.identity)
    {k : Nat} (hk : n.Fits k) : ∃ j, k = j + 1 ∧ (baseNode label c).Fits (j + 1) := by
  obtain ⟨j, rfl, hj⟩ := hi.fits hk label
  exact ⟨j, rfl, by simpa [baseNode] using hj⟩

/-- What was read can be written. -/
theorem rewrites {c : ConversationNode} (h : ofNode n = .ok c) : Rewrites 0 c.toNode n := by
  induction c using nodes_induction generalizing n with
  | step c ih =>
    cases readAt_of_read h with
    | conversation _ hkeys hleaf =>
      refine ⟨_, by rw [toNode, baseToNode_eq _ hkeys hleaf.identifies], ?_⟩
      intro k _ hk
      obtain ⟨j, rfl, hj⟩ := fits_baseNode "conversation" hleaf.identifies hk
      exact hj
    | @subConversation b fs nodes _ _ hkeys hbears hnodes =>
      obtain ⟨ms, hms, hall⟩ := Rewrites.mapM fun m hm =>
        (exists_of_allOfNodes hnodes hm).imp fun d hd => ⟨hd.1, ih m hm hd.2⟩
      refine ⟨_, by rw [toNode, baseToNode_eq _ hkeys hbears.identifies, allToNodes_eq, hms]; rfl,
        ?_⟩
      intro k _ hk
      obtain ⟨j, rfl, hj⟩ := fits_baseNode "subConversation" hbears.identifies hk
      exact (Node.fits_pushAll ms).mpr ⟨hj, hall j (Nat.zero_le j) hk⟩
    | callConversation _ hkeys hleaf =>
      refine ⟨_, by rw [toNode, baseToNode_eq _ hkeys hleaf.identifies]; rfl, ?_⟩
      intro k _ hk
      obtain ⟨j, rfl, hj⟩ := fits_baseNode "callConversation" hleaf.identifies hk
      simpa using hj

end ConversationNode

end BpmnModel
