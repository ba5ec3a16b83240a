import BpmnModel.Proofs.Flows

/-!
# Flow elements that were read

What was read holds together: the element could be built, it is written again, and it fits where it
was read.

* `FlowElement.ReadAt` — the parts were read from the node and the nodes below it.
* `FlowElement.readAt_of_read` — reading establishes it.
* `FlowElement.ReadAt.rewrites`, `FlowElement.ReadAt.proper` — what follows.
-/

namespace BpmnModel

variable {n : Node}

namespace FlowElement

/-- The parts of the flow element were read from the node and the nodes below it. -/
inductive ReadAt : FlowElement → Node → Prop where
  | task {a : Activity} {w : TaskWork} {n : Node} (activity : a.ReadAt n) (proper : w.Proper) :
    ReadAt (.task a w) n
  | callActivity {a : Activity} {n : Node} (called : Option (Ref .anyCallable))
    (activity : a.ReadAt n) : ReadAt (.callActivity a called) n
  | subProcess {a : Activity} {es : List FlowElement} {ls : List LaneSet} {as : List Artifact}
    {n : Node} (triggeredByEvent : Bool) (source : FlowElement → Node) (activity : a.ReadAt n)
    (below : ∀ e ∈ es, source e ∈ n.children) (elements : ∀ e ∈ es, ReadAt e (source e))
    (laneSets : ∀ s ∈ ls, ∃ c ∈ n.children, LaneSet.ofNode c = .ok s)
    (artifacts : ∀ x ∈ as, ∃ c ∈ n.children, Artifact.ReadFrom x c) :
    ReadAt (.subProcess a triggeredByEvent es ls as) n
  | gateway {g : Gateway} {n : Node} (base : n.Identifies g.base.identity) : ReadAt (.gateway g) n
  | event {e : Event} {n : Node} (base : n.Identifies e.base.identity)
    (definitions : ∀ d ∈ e.definitions, ∃ c ∈ n.children, ∃ parent,
      EventDefinition.ofNode parent c = .ok d) : ReadAt (.event e) n
  | sequenceFlow {f : SequenceFlow} {n : Node} (base : n.Identifies f.base.identity)
    (condition : ∀ x, f.condition = some x → ∃ c ∈ n.children, Expression.ofNode c = .ok x) :
    ReadAt (.sequenceFlow f) n

namespace ReadAt

variable {e : FlowElement}

theorem mapEdges (h : e.ReadAt n) (f : Edges → Edges) : (e.mapEdges f).ReadAt n := by
  cases h with
  | task activity proper => exact .task (activity.with_edges _) proper
  | callActivity called activity => exact .callActivity called (activity.with_edges _)
  | subProcess t source activity below elements laneSets artifacts =>
    exact .subProcess t source (activity.with_edges _) below elements laneSets artifacts
  | gateway base => exact .gateway base
  | event base definitions => exact .event base definitions
  | sequenceFlow base condition => exact .sequenceFlow base condition

/-- The contents that were read are written again, and fit where they were read. -/
theorem contents_rewrites {es : List FlowElement} {ls : List LaneSet} {as : List Artifact}
    (hes : ∀ e ∈ es, ∃ c ∈ n.children, Rewrites 0 e.toNode c)
    (hls : ∀ s ∈ ls, ∃ c ∈ n.children, LaneSet.ofNode c = .ok s)
    (has : ∀ x ∈ as, ∃ c ∈ n.children, Artifact.ReadFrom x c) :
    ∃ ens lns ans, allToNodes es = .ok ens ∧ ls.mapM LaneSet.toNode = .ok lns ∧
      as.mapM Artifact.toNode = .ok ans ∧
      ∀ k, n.Fits (k + 1) → ∀ c ∈ ens ++ lns ++ ans, c.Fits k := by
  obtain ⟨ens, hens, hefits⟩ := Rewrites.mapM hes
  obtain ⟨lns, hlns, hlfits⟩ := Rewrites.mapM fun s hs =>
    (hls s hs).imp fun c hc => ⟨hc.1, LaneSet.rewrites hc.2⟩
  obtain ⟨ans, hans, hafits⟩ := Rewrites.mapM fun x hx =>
    (has x hx).imp fun c hc => ⟨hc.1, hc.2.rewrites⟩
  refine ⟨ens, lns, ans, by rw [allToNodes_eq, hens], hlns, hans, ?_⟩
  intro k hk
  have h0 : 0 ≤ k := Nat.zero_le k
  simp only [List.forall_mem_append]
  exact ⟨⟨hefits k h0 hk, hlfits k h0 hk⟩, hafits k h0 hk⟩

/-- A base is written again, whatever is set after it, with children that fit. -/
theorem base_rewrites {b : FlowBase} (h : n.Identifies b.identity) (label : String)
    (next : Node → Node)
    (hnext : ∀ k, n.Fits (k + 1) → ∀ m, m.Fits (k + 1) → (next m).Fits (k + 1)) :
    Rewrites 0 (do let m ← b.toNode label; return next m) n := by
  refine ⟨next (b.node label), ?_, ?_⟩
  · rw [FlowBase.toNode, Identity.toNode, h.extensionValues]
    rfl
  · intro k _ hk
    obtain ⟨j, rfl, hj⟩ := h.fits hk label
    exact hnext j hk _ (by simpa [FlowBase.node] using hj)

/-- **What was read is written again, and fits where it was read.** -/
theorem rewrites (h : e.ReadAt n) : Rewrites 0 e.toNode n := by
  induction h with
  | @task a w n activity proper =>
    obtain ⟨fields, read, -, -, hon⟩ := TaskWork.read_onNode _
    refine ⟨(w.onNode (a.node w.label)).pushAll a.loopNodes, ?_, ?_⟩
    · rw [toNode, activity.toNode_eq]
      rfl
    · intro k _ hk
      obtain ⟨j, rfl, hnode, hloop⟩ := activity.fits hk w.label
      exact (Node.fits_pushAll _).mpr ⟨(hon _).1.fits hnode, hloop⟩
  | @callActivity a n called activity =>
    refine ⟨((a.node "callActivity").setRef? "calledElement" called).pushAll a.loopNodes, ?_,
      fun k _ hk => ?_⟩
    · rw [toNode, activity.toNode_eq]
      rfl
    · obtain ⟨j, rfl, hnode, hloop⟩ := activity.fits hk "callActivity"
      simpa [hnode] using hloop
  | @subProcess a es ls as n t source activity below elements laneSets artifacts ih =>
    obtain ⟨ens, lns, ans, hens, hlns, hans, hfits⟩ :=
      contents_rewrites (fun e he => ⟨source e, below e he, ih e he⟩) laneSets artifacts
    refine ⟨(((a.node "subProcess").setFlag "triggeredByEvent" t false).pushAll
      a.loopNodes).pushAll (ens ++ lns ++ ans), ?_, fun k _ hk => ?_⟩
    · rw [toNode, activity.toNode_eq, hens, hlns, hans]
      rfl
    · obtain ⟨j, rfl, hnode, hloop⟩ := activity.fits hk "subProcess"
      rw [Node.fits_pushAll, Node.fits_pushAll, Node.setFlag_eq, Node.fits_set?]
      exact ⟨⟨hnode, hloop⟩, hfits j hk⟩
  | @gateway g n base =>
    exact base_rewrites base g.type.label _ fun k _ m hm => by simpa [Edges.onNode] using hm
  | @event e n base definitions =>
    obtain ⟨fields, read, -, -, hon⟩ := e.position.read_onNode
    apply base_rewrites base e.position.label _
    intro k hk m hm
    refine (Node.fits_pushAll _).mpr ⟨(hon _).1.fits (e.edges.differsIn.fits hm), ?_⟩
    intro c hc
    obtain ⟨d, hd, rfl⟩ := List.mem_map.mp hc
    obtain ⟨c, hc, parent, hread⟩ := definitions d hd
    exact EventDefinition.fits_toNode hread (hk.child hc)
  | @sequenceFlow f n base condition =>
    apply base_rewrites base "sequenceFlow" _
    intro k hk m hm
    rw [Node.fits_pushAll]
    refine ⟨by simpa using hm, ?_⟩
    intro c hc
    obtain ⟨x, hx, rfl⟩ : ∃ x, f.condition = some x ∧
        x.toNode "conditionExpression" = c := by simpa [Expression.toNodes] using hc
    obtain ⟨c, hc, hread⟩ := condition x hx
    exact Expression.fits_toNode hread (hk.child hc) _

/-- No task that was read is implemented by a technology with a reserved name. -/
theorem proper (h : e.ReadAt n) : ∀ x ∈ (Element.flowElement e).subtree, x.Proper := by
  induction h with
  | task activity hw =>
    refine Element.proper_of_children ?_ (by simp [Element.children])
    rintro a w ⟨⟩
    exact hw
  | callActivity | gateway | event | sequenceFlow =>
    refine Element.proper_of_children ?_ (by simp [Element.children])
    rintro a w ⟨⟩
  | @subProcess a es ls as n t source activity below elements laneSets artifacts ih =>
    apply Element.proper_of_children (by rintro a w ⟨⟩)
    intro c hc
    simp only [Element.children, Container.owned, List.mem_append, List.mem_map] at hc
    rcases hc with (⟨e, he, rfl⟩ | ⟨s, -, rfl⟩) | ⟨x, -, rfl⟩
    · exact ih e he
    · exact Element.Flowless.proper trivial
    · exact Element.Flowless.proper trivial

end ReadAt

/-- Where contents were read from. -/
theorem exists_of_contentsOfNodes {parent : String} {skip : Node → Bool} {ns : List Node}
    {c : Contents} (h : contentsOfNodes parent skip ns = .ok c) :
    (∀ e ∈ c.elements, ∃ m ∈ ns, ofNode parent m = .ok e) ∧
      (∀ s ∈ c.laneSets, ∃ m ∈ ns, LaneSet.ofNode m = .ok s) ∧
      ∀ x ∈ c.artifacts, ∃ m ∈ ns, Artifact.ReadFrom x m := by
  induction ns generalizing c with
  | nil =>
    rw [contentsOfNodes] at h
    cases h
    simp [Contents.empty]
  | cons m ns ih =>
    have hcons {α : Type} {xs : List α} {good : α → Node → Prop}
        (h : ∀ x ∈ xs, ∃ m ∈ ns, good x m) : ∀ x ∈ xs, ∃ d ∈ m :: ns, good x d :=
      fun x hx => (h x hx).imp fun d hd => ⟨List.mem_cons_of_mem m hd.1, hd.2⟩
    have hnew {α : Type} {x : α} {xs : List α} {good : α → Node → Prop} (hx : good x m)
        (h : ∀ x ∈ xs, ∃ m ∈ ns, good x m) : ∀ y ∈ x :: xs, ∃ d ∈ m :: ns, good y d :=
      List.forall_mem_cons.mpr ⟨⟨m, List.mem_cons_self, hx⟩, hcons h⟩
    rw [contentsOfNodes] at h
    split at h
    · obtain ⟨he, hs, hx⟩ := ih h
      exact ⟨hcons he, hcons hs, hcons hx⟩
    · split at h
      · rename_i read hread
        simp only [bind_eq_ok, pure_eq_ok, Except.ok.injEq] at h
        obtain ⟨a, ha, d, hd, rfl⟩ := h
        obtain ⟨he, hs, hx⟩ := ih hd
        exact ⟨hcons he, hcons hs, hnew ⟨read, hread, ha⟩ hx⟩
      · split at h
        · simp only [bind_eq_ok, pure_eq_ok, Except.ok.injEq] at h
          obtain ⟨s, hs', d, hd, rfl⟩ := h
          obtain ⟨he, hs, hx⟩ := ih hd
          exact ⟨hcons he, hnew hs' hs, hcons hx⟩
        · simp only [bind_eq_ok, pure_eq_ok, Except.ok.injEq] at h
          obtain ⟨e, he', d, hd, rfl⟩ := h
          obtain ⟨he, hs, hx⟩ := ih hd
          exact ⟨hnew he' he, hcons hs, hcons hx⟩

theorem readAt_sequenceFlow {f : SequenceFlow} (h : SequenceFlow.ofNode n = .ok f) :
    (sequenceFlow f).ReadAt n := by
  simp only [SequenceFlow.ofNode, bind_eq_ok, pure_eq_ok, Except.ok.injEq] at h
  obtain ⟨base, hbase, -, -, -, -, -, -, -, -, condition, hcondition, rfl⟩ := h
  refine .sequenceFlow (FlowBase.identifies hbase) ?_
  intro x hx
  rcases SequenceFlow.exists_of_conditionOfNodes hcondition with heq | ⟨c, hc, y, heq, hread⟩
  · rw [heq] at hx
    cases hx
  · rw [heq] at hx
    cases hx
    exact ⟨c, Node.mem_children_of_mem_content hc, hread⟩

theorem readAt_event {form : List String × (Node → Reading EventPosition)} {e : Event}
    (h : Event.ofNode form n = .ok e) : (event e).ReadAt n := by
  simp only [Event.ofNode, bind_eq_ok, checked_eq_ok] at h
  obtain ⟨base, hbase, edges, -, position, -, -, -, definitions, hdefinitions, hof⟩ := h
  unfold Event.of at hof
  split at hof
  · cases hof
    refine .event (FlowBase.identifies hbase) ?_
    intro d hd
    obtain ⟨c, hc, hread⟩ := Node.exists_of_mapM hdefinitions hd
    exact ⟨c, Node.mem_children_of_mem_content hc, n.label, hread⟩
  · cases hof

theorem readAt_gateway {type : GatewayType} {g : Gateway} (h : Gateway.ofNode type n = .ok g) :
    (gateway g).ReadAt n := by
  simp only [Gateway.ofNode, bind_eq_ok, pure_eq_ok, Except.ok.injEq] at h
  obtain ⟨base, hbase, -, -, -, -, -, -, -, -, -, -, rfl⟩ := h
  exact .gateway (FlowBase.identifies hbase)

/-- The contents of a node whose children were read part by part. -/
theorem readAt_of_assemble {parent : String} {skip : Node → Bool} {contents : Contents}
    {c : Container}
    (hread : ∀ m ∈ n.children, ∀ e, ofNode parent m = .ok e → e.ReadAt m ∧ e.Assembled)
    (hcontents : contentsOfNodes parent skip n.children = .ok contents)
    (hassemble : Container.assemble contents.elements contents.laneSets = .ok c) :
    c.Complete ∧ (∀ e ∈ c.elements, ∃ m ∈ n.children, e.ReadAt m) ∧
      (∀ s ∈ c.laneSets, ∃ m ∈ n.children, LaneSet.ofNode m = .ok s) ∧
      ∀ x ∈ contents.artifacts, ∃ m ∈ n.children, Artifact.ReadFrom x m := by
  obtain ⟨hes, hls, has⟩ := exists_of_contentsOfNodes hcontents
  refine ⟨.of_assemble (fun e he => ?_) hassemble, ?_, ?_, has⟩
  · obtain ⟨m, hm, hof⟩ := hes e he
    exact (hread m hm e hof).2
  · refine Container.forall_assemble ?_ (fun e he => ?_) hassemble
    · rintro e flow ⟨m, hm, he⟩
      exact ⟨m, hm, he.mapEdges _⟩
    · obtain ⟨m, hm, hof⟩ := hes e he
      exact ⟨m, hm, (hread m hm e hof).1⟩
  · rw [Container.laneSets_insertAll hassemble]
    exact hls

/-- **What was read was read part by part, and could be built.** -/
theorem readAt_of_read {parent : String} {e : FlowElement} (h : ofNode parent n = .ok e) :
    e.ReadAt n ∧ e.Assembled := by
  induction n using Node.children_induction generalizing parent e with
  | step n ih =>
    rw [ofNode_eq] at h
    split at h
    · obtain ⟨f, hf, rfl⟩ := map_eq_ok.mp h
      exact ⟨readAt_sequenceFlow hf, .sequenceFlow f⟩
    split at h
    · obtain ⟨x, hx, rfl⟩ := map_eq_ok.mp h
      exact ⟨readAt_event hx, .event x⟩
    split at h
    · obtain ⟨g, hg, rfl⟩ := map_eq_ok.mp h
      exact ⟨readAt_gateway hg, .gateway g⟩
    split at h
    · rename_i fields read hform
      simp only [bind_eq_ok, pure_eq_ok, Except.ok.injEq] at h
      obtain ⟨draft, hdraft, -, -, w, hw, -, -, a, ha, rfl⟩ := h
      exact ⟨.task (Activity.readAt_of_read hdraft ha) (TaskWork.proper_of_read hform hw), .task a w⟩
    split at h
    · simp only [bind_eq_ok, pure_eq_ok, Except.ok.injEq] at h
      obtain ⟨draft, hdraft, -, -, called, -, -, -, a, ha, rfl⟩ := h
      exact ⟨.callActivity called (Activity.readAt_of_read hdraft ha), .callActivity a called⟩
    split at h
    · simp only [bind_eq_ok, checked_eq_ok, pure_eq_ok, Except.ok.injEq] at h
      obtain ⟨draft, hdraft, t, -, contents, hcontents, c, hassemble, -, -, a, ha, rfl⟩ := h
      obtain ⟨hcomplete, hes, hls, has⟩ :=
        readAt_of_assemble (fun m hm e he => ih m hm he) hcontents hassemble
      have : Nonempty Node := ⟨n⟩
      choose! source hbelow hes using hes
      exact ⟨.subProcess t source (Activity.readAt_of_read hdraft ha) hbelow hes hls has,
        assembled_subProcess_iff.mpr hcomplete⟩
    · cases h

end FlowElement

end BpmnModel
