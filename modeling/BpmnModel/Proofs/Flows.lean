import BpmnModel.Proofs.Artifacts
import BpmnModel.Proofs.Rereading

/-!
# Flow elements, written and read back

A container that was assembled is assembled again to itself, so that a sub-process is read back
with the flows listed as they were.  Only the technology of a task may be taken for another one.

* `FlowElement.ofNode_eq` — the reader goes by the label.
* `FlowElement.contentsOfNodes_eq_ok` — the children of a container are sorted as they were written.
* `FlowElement.writes` — writing a flow element that was assembled.
-/

namespace BpmnModel

variable {n : Node}

/-! ## Lane sets -/

namespace Lane

theorem writes (l : Lane) : Writes l.toNode (Element.lane l).Carried
    (fun n => n.label = "lane" ∧ ofNode n = .ok l) := by
  refine .leaf "lane" _ rfl rfl nofun ?_
  intro h
  simp [ofNode, Identity.ofNode_eq_ok h]

theorem isLeaf_of_read {l : Lane} (h : ofNode n = .ok l) :
    n.IsLeaf l.identity ["id", "name", "flowNodeRefs"] := by
  simp only [ofNode, bind_eq_ok, pure_eq_ok, Except.ok.injEq] at h
  obtain ⟨id, hid, -, -, -, -, ⟨⟩, hfinish, ⟨⟩, hcontent, identity, hi, rfl⟩ := h
  exact .of_read hid hi hfinish hcontent

theorem rewrites {l : Lane} (h : ofNode n = .ok l) : Rewrites 0 l.toNode n :=
  .leaf "lane" _ (isLeaf_of_read h).identifies (by simp)

end Lane

namespace LaneSet

theorem ofNode_only (n : Node) : ofNode n = (do
    let id ← n.id
    let name ← n.text? "name"
    n.finish ["id", "name"]
    let lanes ← n.only "lane" Lane.ofNode
    return ⟨← Identity.ofNode id n, name, lanes⟩) := rfl

theorem writes (s : LaneSet) : Writes s.toNode (Element.laneSet s).Carried
    (fun n => n.label = "laneSet" ∧ ofNode n = .ok s) := by
  refine .branch "laneSet" _ rfl rfl nofun (fun l _ => l.writes) ?_
  intro h ns hns
  have hdoc := Node.allContent_of_forall₂ hns (by decide)
  rw [ofNode_only]
  simp [Identity.ofNode_eq_ok h, hdoc, Node.only_eq_ok hns]

theorem bears_of_read {s : LaneSet} (h : ofNode n = .ok s) :
    n.Bears s.identity ["id", "name"] ∧ n.only "lane" Lane.ofNode = .ok s.lanes := by
  simp only [ofNode_only, bind_eq_ok, pure_eq_ok, Except.ok.injEq] at h
  obtain ⟨id, hid, -, -, ⟨⟩, hfinish, lanes, hlanes, identity, hi, rfl⟩ := h
  exact ⟨.of_read hid hi hfinish, hlanes⟩

theorem rewrites {s : LaneSet} (h : ofNode n = .ok s) : Rewrites 0 s.toNode n := by
  obtain ⟨hbears, hlanes⟩ := bears_of_read h
  exact .branch "laneSet" _ hbears.identifies hlanes (fun _ _ => Lane.rewrites)
    (by simp +contextual)

end LaneSet

/-! ## Reading by label -/

namespace FlowElement

/-- The label of the node of a flow element. -/
def label : FlowElement → String
  | task _ w => w.label
  | callActivity .. => "callActivity"
  | subProcess .. => "subProcess"
  | gateway g => g.type.label
  | event e => e.position.label
  | sequenceFlow _ => "sequenceFlow"

/-- No label of a flow element is told apart before it is looked at as one. -/
theorem label_cases (e : FlowElement) :
    e.label ≠ "documentation" ∧ e.label ≠ "laneSet" ∧ e.label ≠ "standardLoopCharacteristics" ∧
      e.label ≠ "multiInstanceLoopCharacteristics" ∧ Artifact.reader? e.label = none := by
  cases e with
  | task a w => cases w <;> simp [label, TaskWork.label, Artifact.reader?]
  | callActivity a c => simp [label, Artifact.reader?]
  | subProcess a t es ls as => simp [label, Artifact.reader?]
  | gateway g =>
    obtain ⟨b, e, type, d, f⟩ := g
    cases type <;> simp [label, GatewayType.label, Artifact.reader?]
  | event e =>
    obtain ⟨b, e, position, d, h⟩ := e
    cases position <;> simp [label, EventPosition.label, Artifact.reader?]
  | sequenceFlow f => simp [label, Artifact.reader?]

/-- The reader without the parts of the node spelled out. -/
theorem ofNode_eq (parent : String) (n : Node) : ofNode parent n =
    if n.label = "sequenceFlow" then sequenceFlow <$> SequenceFlow.ofNode n
    else
      match EventPosition.form? n.label with
      | some form => event <$> Event.ofNode form n
      | none =>
        match GatewayType.ofLabel? n.label with
        | some type => gateway <$> Gateway.ofNode type n
        | none =>
          match TaskWork.form? n.label with
          | some (fields, read) => do
            let draft ← Activity.ofNode n
            Activity.noContent n
            let work ← read n
            n.finish (Activity.fields ++ fields)
            return task (← draft.finish) work
          | none =>
            if n.label = "callActivity" then do
              let draft ← Activity.ofNode n
              Activity.noContent n
              let calledElement ← n.ref? "calledElement"
              n.finish (Activity.fields ++ ["calledElement"])
              return callActivity (← draft.finish) calledElement
            else if n.label = "subProcess" then do
              let draft ← Activity.ofNode n
              let triggeredByEvent ← n.flag "triggeredByEvent" false
              let contents ← contentsOfNodes n.label Loop.isLoop n.children
              let c ← checked (Container.assemble contents.elements contents.laneSets)
              n.finish (Activity.fields ++ ["triggeredByEvent"])
              return subProcess (← draft.finish) triggeredByEvent c.elements c.laneSets
                contents.artifacts
            else throw (.unknownLabel n.label parent) := by
  obtain ⟨label, attributes, children⟩ := n
  exact ofNode.eq_1 parent label attributes children

theorem allToNodes_eq (es : List FlowElement) : allToNodes es = es.mapM toNode := by
  induction es with
  | nil => rfl
  | cons e es ih => rw [allToNodes, ih, List.mapM_cons]

/-- The node is that of a flow element and is read as it. -/
def ReadFrom (e : FlowElement) (n : Node) : Prop :=
  n.label = e.label ∧ ∀ parent, ofNode parent n = .ok e

theorem ReadFrom.not_documentation {e : FlowElement} (h : e.ReadFrom n) :
    n.isDocumentation = false := by
  simpa [Node.isDocumentation, h.1] using e.label_cases.1

theorem ReadFrom.not_loop {e : FlowElement} (h : e.ReadFrom n) : Loop.isLoop n = false := by
  obtain ⟨-, -, hs, hm, -⟩ := e.label_cases
  simpa [Loop.isLoop, h.1] using ⟨hs, hm⟩

end FlowElement

theorem Artifact.ReadFrom.not_loop {a : Artifact} (h : a.ReadFrom n) : Loop.isLoop n = false := by
  obtain ⟨read, hread, -⟩ := h
  by_contra hloop
  simp only [Loop.isLoop, Bool.not_eq_false, Bool.or_eq_true, decide_eq_true_eq] at hloop
  rcases hloop with heq | heq
  · rw [heq] at hread
    cases hread
  · rw [heq] at hread
    cases hread

/-! ## Contents, sorted -/

namespace FlowElement

variable {parent : String} {skip : Node → Bool} {ns rest : List Node}

theorem contentsOfNodes_skipped (h : ∀ c ∈ ns, (c.isDocumentation || skip c) = true) :
    contentsOfNodes parent skip (ns ++ rest) = contentsOfNodes parent skip rest := by
  induction ns with
  | nil => rfl
  | cons c ns ih =>
    rw [List.cons_append, contentsOfNodes, if_pos (h c List.mem_cons_self)]
    exact ih fun d hd => h d (List.mem_cons_of_mem c hd)

theorem contentsOfNodes_artifacts (hskip : ∀ c, skip c = true → Loop.isLoop c = true)
    {as : List Artifact} (h : List.Forall₂ Artifact.ReadFrom as ns) :
    contentsOfNodes parent skip ns = .ok ⟨[], [], as⟩ := by
  induction h with
  | nil => rw [contentsOfNodes]; rfl
  | cons ha _ ih =>
    have hnone := Bool.eq_false_iff.mpr fun hs =>
      Bool.eq_false_iff.mp ha.not_loop (hskip _ hs)
    have hdoc := ha.not_documentation
    obtain ⟨read, hread, ha⟩ := ha
    rw [contentsOfNodes, hdoc, hnone, hread, ih]
    simp [ha]

theorem contentsOfNodes_laneSets (hskip : ∀ c, skip c = true → Loop.isLoop c = true)
    {ls : List LaneSet} {c : Contents}
    (h : List.Forall₂ (fun s n => n.label = "laneSet" ∧ LaneSet.ofNode n = .ok s) ls ns)
    (hrest : contentsOfNodes parent skip rest = .ok c) :
    contentsOfNodes parent skip (ns ++ rest) = .ok { c with laneSets := ls ++ c.laneSets } := by
  induction h with
  | nil => exact hrest
  | @cons s m _ _ hs _ ih =>
    have hnone : skip m = false := Bool.eq_false_iff.mpr fun hm => by
      simpa [Loop.isLoop, hs.1] using hskip m hm
    rw [List.cons_append, contentsOfNodes, hnone, ih]
    simp [Node.isDocumentation, hs.1, hs.2, Artifact.reader?]

theorem contentsOfNodes_elements (hskip : ∀ c, skip c = true → Loop.isLoop c = true)
    {es : List FlowElement} {c : Contents} (h : List.Forall₂ ReadFrom es ns)
    (hrest : contentsOfNodes parent skip rest = .ok c) :
    contentsOfNodes parent skip (ns ++ rest) = .ok { c with elements := es ++ c.elements } := by
  induction h with
  | nil => exact hrest
  | @cons e m _ _ he _ ih =>
    have hnone : skip m = false := Bool.eq_false_iff.mpr fun hm =>
      Bool.eq_false_iff.mp he.not_loop (hskip m hm)
    have hdoc := he.not_documentation
    obtain ⟨-, hlane, -, -, hartifact⟩ := e.label_cases
    rw [List.cons_append, contentsOfNodes, hnone, hdoc, ih, he.1, hartifact]
    simp [hlane, he.2]

/-- What was written in order is sorted back. -/
theorem contentsOfNodes_eq_ok (hskip : ∀ c, skip c = true → Loop.isLoop c = true)
    {passed ens lns ans : List Node} {es : List FlowElement} {ls : List LaneSet}
    {as : List Artifact} (hpassed : ∀ c ∈ passed, (c.isDocumentation || skip c) = true)
    (hes : List.Forall₂ ReadFrom es ens)
    (hls : List.Forall₂ (fun s n => n.label = "laneSet" ∧ LaneSet.ofNode n = .ok s) ls lns)
    (has : List.Forall₂ Artifact.ReadFrom as ans) :
    contentsOfNodes parent skip (passed ++ (ens ++ lns ++ ans)) = .ok ⟨es, ls, as⟩ := by
  rw [contentsOfNodes_skipped hpassed, List.append_assoc,
    contentsOfNodes_elements hskip hes (contentsOfNodes_laneSets hskip hls
      (contentsOfNodes_artifacts hskip has))]
  simp

end FlowElement

/-! ## Flow elements -/

/-- The element is no task whose technology goes by a reserved name. -/
def Element.Proper (x : Element) : Prop :=
  ∀ a w, x = .flowElement (.task a w) → w.Proper

namespace Element

theorem proper_of_children {e : Element} (he : e.Proper)
    (hc : ∀ c ∈ e.children, ∀ x ∈ c.subtree, x.Proper) : ∀ x ∈ e.subtree, x.Proper := by
  intro x hx
  rcases mem_subtree.mp hx with rfl | ⟨c, hmem, hx⟩
  · exact he
  · exact hc c hmem x hx

theorem Flowless.proper {e : Element} (h : e.Flowless) : ∀ x ∈ e.subtree, x.Proper := by
  induction e using children_induction with
  | step e ih =>
    refine proper_of_children ?_ fun c hc => ih c hc (h.children c hc)
    rintro a w rfl
    exact h.elim

end Element

/-- Without such tasks everything comes back as it was. -/
theorem FlowElement.reread_eq_self {e : FlowElement}
    (h : ∀ x ∈ (Element.flowElement e).subtree, x.Proper) : e.reread = e := by
  induction e using contents_induction with
  | step e ih =>
    cases e with
    | task a w =>
      rw [reread, TaskWork.reread_eq_self (h _ (Element.mem_subtree.mpr (.inl rfl)) a w rfl)]
    | subProcess a t es ls as =>
      have hes : es.map reread = es := by
        refine (List.map_congr_left fun e he => ?_).trans (List.map_id es)
        have hchild : Element.flowElement e ∈ (Element.flowElement (subProcess a t es ls as)).children :=
          Element.flowElement_mem_children (k := ⟨es, ls⟩) rfl he
        exact ih ⟨es, ls⟩ rfl e he fun x hx => h x (Element.mem_subtree.mpr (.inr ⟨_, hchild, hx⟩))
      rw [reread, allReread_eq, hes]
    | _ => rfl

theorem Root.reread_eq_self {r : Root} (h : ∀ x ∈ (Element.root r).subtree, x.Proper) :
    r.reread = r := by
  cases r with
  | process p =>
    have hes : p.container.elements.map FlowElement.reread = p.container.elements := by
      refine (List.map_congr_left fun e he => ?_).trans (List.map_id _)
      have hchild : Element.flowElement e ∈ (Element.root (.process p)).children :=
        Element.flowElement_mem_children rfl he
      exact FlowElement.reread_eq_self fun x hx => h x (Element.mem_subtree.mpr (.inr ⟨_, hchild, hx⟩))
    rw [reread, Process.reread, Container.reread, hes]
  | _ => rfl

namespace FlowElement

theorem carries_iff {e : FlowElement} {a : Activity} (h : e.activity? = some a) (f : Feature) :
    (Element.flowElement e).Carries f ↔ a.Carries f := by
  have hidentity : (Element.flowElement e).identity = a.base.identity := by
    cases e with
    | task | callActivity | subProcess =>
      cases h
      rfl
    | gateway | event | sequenceFlow => cases h
  constructor
  · rintro (⟨rfl, hv⟩ | hholds)
    · exact .inl ⟨rfl, hidentity ▸ hv⟩
    · cases hholds with
      | dataSpecification ha hd =>
        cases h.symm.trans ha
        exact .inr (.inl ⟨rfl, hd⟩)
      | resourceRoles ha hr =>
        cases h.symm.trans ha
        exact .inr (.inr ⟨rfl, hr⟩)
  · rintro (⟨rfl, hv⟩ | ⟨rfl, hd⟩ | ⟨rfl, hr⟩)
    · exact .inl ⟨rfl, hidentity ▸ hv⟩
    · exact .inr (.dataSpecification h hd)
    · exact .inr (.resourceRoles h hr)

end FlowElement

namespace Activity

variable {act : Activity}

theorem noContent_of_loopNodes {m : Node} (h : m.content = act.loopNodes) :
    noContent m = .ok () := by
  rw [noContent, h, loopNodes]
  cases act.loop <;> simp

end Activity

namespace FlowElement

variable {a : Activity}

theorem readFrom_task (h : a.Plain) (w : TaskWork) :
    (task a w).reread.ReadFrom ((w.onNode (a.node w.label)).pushAll a.loopNodes) := by
  obtain ⟨fields, read, hform, hfields, hon⟩ := w.read_onNode
  obtain ⟨hdiffers, hread⟩ := hon (a.node w.label)
  have hlabel : ((w.onNode (a.node w.label)).pushAll a.loopNodes).label = w.label := by
    rw [Node.label_pushAll, hdiffers.label, Activity.label_node]
  refine ⟨hlabel.trans w.label_reread.symm, ?_⟩
  intro parent
  obtain ⟨d, hd, hfinish⟩ := Activity.ofNode_node h w.label Node.allContent_nil nofun
  rw [List.append_nil, ← Activity.ofNode_congr (hdiffers.pushAll _) hfields] at hd
  have hcontent : ((w.onNode (a.node w.label)).pushAll a.loopNodes).content = a.loopNodes := by
    rw [Node.content_pushAll _ a.allContent_loopNodes, hdiffers.content, Activity.content_node,
      List.nil_append]
  have hclosed : ((w.onNode (a.node w.label)).pushAll a.loopNodes).Closed
      (Activity.fields ++ fields) :=
    hdiffers.closed _ (by simp +contextual) (Activity.closed_node _ _ (by simp +contextual))
  have hnone : ∀ x ∈ fields, (a.node w.label).attribute? x = none := fun x hx =>
    Activity.attribute?_node _ _ fun hmem => hfields x hmem hx
  have hnames : w.label ≠ "sequenceFlow" ∧ EventPosition.form? w.label = none ∧
      GatewayType.ofLabel? w.label = none := by
    cases w <;> exact ⟨by simp [TaskWork.label], rfl, rfl⟩
  obtain ⟨hflow, hevent, hgateway⟩ := hnames
  simp only [ofNode_eq, hlabel, hflow, hevent, hgateway, hform, hd, hfinish,
    Activity.noContent_of_loopNodes hcontent, hread _ hnone, Node.finish_of_closed _ hclosed,
    if_false, ok_bind, pure_eq_ok, reread]

theorem readFrom_callActivity {called : Option (Ref .anyCallable)} (h : a.Plain) :
    (callActivity a called).ReadFrom (((a.node "callActivity").setRef? "calledElement"
      called).pushAll a.loopNodes) := by
  have hdiffers : (a.node "callActivity").DiffersIn ["calledElement"]
      ((a.node "callActivity").setRef? "calledElement" called) := by
    simpa using (Node.DiffersIn.refl _ _).set? (by simp)
  refine ⟨hdiffers.label.trans (Activity.label_node _ _), ?_⟩
  intro parent
  obtain ⟨d, hd, hfinish⟩ := Activity.ofNode_node h "callActivity" Node.allContent_nil nofun
  rw [List.append_nil, ← Activity.ofNode_congr (hdiffers.pushAll _) (by simp)] at hd
  have hcontent : (((a.node "callActivity").setRef? "calledElement" called).pushAll
      a.loopNodes).content = a.loopNodes := by
    rw [Node.content_pushAll _ a.allContent_loopNodes, hdiffers.content, Activity.content_node,
      List.nil_append]
  have hclosed : (((a.node "callActivity").setRef? "calledElement" called).pushAll
      a.loopNodes).Closed (Activity.fields ++ ["calledElement"]) :=
    hdiffers.closed _ (by simp) (Activity.closed_node _ _ (by simp +contextual))
  have hcalled : (((a.node "callActivity").setRef? "calledElement" called).pushAll
      a.loopNodes).ref? "calledElement" = .ok called := by
    simp [Activity.attribute?_node]
  rw [ofNode_eq]
  simp only [hd, hfinish, Activity.noContent_of_loopNodes hcontent, hcalled,
    Node.finish_of_closed _ hclosed, ok_bind, pure_eq_ok]
  simp [EventPosition.form?, GatewayType.ofLabel?, GatewayType.label, TaskWork.form?]

theorem readFrom_subProcess {triggeredByEvent : Bool} {es : List FlowElement} {ls : List LaneSet}
    {as : List Artifact} {ens lns ans : List Node} (h : a.Plain)
    (hassembled : (subProcess a triggeredByEvent es ls as).Assembled)
    (hes : List.Forall₂ ReadFrom es ens)
    (hls : List.Forall₂ (fun s n => n.label = "laneSet" ∧ LaneSet.ofNode n = .ok s) ls lns)
    (has : List.Forall₂ Artifact.ReadFrom as ans) :
    (subProcess a triggeredByEvent es ls as).ReadFrom ((((a.node "subProcess").setFlag
      "triggeredByEvent" triggeredByEvent false).pushAll a.loopNodes).pushAll
        (ens ++ lns ++ ans)) := by
  have hdiffers : (a.node "subProcess").DiffersIn ["triggeredByEvent"]
      ((a.node "subProcess").setFlag "triggeredByEvent" triggeredByEvent false) := by
    simpa using (Node.DiffersIn.refl _ _).set? (by simp)
  rw [Node.pushAll_pushAll]
  refine ⟨hdiffers.label.trans (Activity.label_node _ _), ?_⟩
  intro parent
  have hdoc : Node.AllContent (ens ++ lns ++ ans) := by
    simp only [Node.allContent_append]
    exact ⟨⟨forall_of_forall₂ hes fun _ _ => ReadFrom.not_documentation,
      Node.allContent_of_forall₂ hls (by decide)⟩,
      forall_of_forall₂ has fun _ _ => Artifact.ReadFrom.not_documentation⟩
  have hloop : ∀ c ∈ ens ++ lns ++ ans, Loop.isLoop c = false := by
    simp only [List.forall_mem_append]
    refine ⟨⟨forall_of_forall₂ hes fun _ _ => ReadFrom.not_loop,
      forall_of_forall₂ hls fun _ _ hs => ?_⟩,
      forall_of_forall₂ has fun _ _ => Artifact.ReadFrom.not_loop⟩
    simp [Loop.isLoop, hs.1]
  obtain ⟨d, hd, hfinish⟩ := Activity.ofNode_node h "subProcess" hdoc hloop
  rw [← Activity.ofNode_congr (hdiffers.pushAll _) (by simp)] at hd
  have hclosed : (((a.node "subProcess").setFlag "triggeredByEvent" triggeredByEvent false).pushAll
      (a.loopNodes ++ (ens ++ lns ++ ans))).Closed (Activity.fields ++ ["triggeredByEvent"]) :=
    hdiffers.closed _ (by simp) (Activity.closed_node _ _ (by simp +contextual))
  have htriggered : (((a.node "subProcess").setFlag "triggeredByEvent" triggeredByEvent
      false).pushAll (a.loopNodes ++ (ens ++ lns ++ ans))).flag "triggeredByEvent" false =
        .ok triggeredByEvent := by
    simp [Activity.attribute?_node]
  have hcontents : contentsOfNodes "subProcess" Loop.isLoop
      (a.base.identity.documentation.map Documentation.toNode ++
        (a.loopNodes ++ (ens ++ (lns ++ ans)))) = .ok ⟨es, ls, as⟩ := by
    rw [← List.append_assoc, ← List.append_assoc ens]
    refine contentsOfNodes_eq_ok (fun _ h => h) ?_ hes hls has
    rw [List.forall_mem_append]
    refine ⟨by simp, ?_⟩
    intro c hc
    obtain ⟨l, -, rfl⟩ : ∃ l, a.loop = some l ∧ l.toNode = c := by
      simpa [Activity.loopNodes] using hc
    simp
  have hassemble : Container.assemble es ls = .ok ⟨es, ls⟩ :=
    Container.assemble_of_wired (assembled_subProcess_iff.mp hassembled).wired
  rw [ofNode_eq]
  simp only [hd, hfinish, htriggered, Node.finish_of_closed _ hclosed, ok_bind, pure_eq_ok]
  simp [EventPosition.form?, GatewayType.ofLabel?, GatewayType.label, TaskWork.form?, hcontents,
    hassemble]

/-- Writing what a container owns, and its artifacts, below a node. -/
theorem contents_writes {es : List FlowElement} {ls : List LaneSet} {as : List Artifact}
    (hes : ∀ e ∈ es, Writes e.toNode (Element.flowElement e).Carried e.reread.ReadFrom) (n : Node) :
    Writes (do
        let elements ← allToNodes es
        let laneSets ← ls.mapM LaneSet.toNode
        let artifacts ← as.mapM Artifact.toNode
        return n.pushAll (elements ++ laneSets ++ artifacts))
      (fun id f => ∃ c ∈ Container.owned ⟨es, ls⟩ ++ as.map .artifact, c.Carried id f)
      (fun m => ∃ ens lns ans, m = n.pushAll (ens ++ lns ++ ans) ∧
        List.Forall₂ ReadFrom (es.map reread) ens ∧
        List.Forall₂ (fun s n => n.label = "laneSet" ∧ LaneSet.ofNode n = .ok s) ls lns ∧
        List.Forall₂ Artifact.ReadFrom as ans) := by
  rw [allToNodes_eq]
  refine ((Writes.mapM hes).bind fun ens hens =>
    (Writes.mapM fun s _ => s.writes).bind fun lns hlns =>
    (Writes.mapM fun a _ => a.writes).map fun ans hans => ?_).congr fun id f => ?_
  · exact ⟨ens, lns, ans, rfl, List.forall₂_map_left_iff.mpr hens, hlns, hans⟩
  · simp [Container.owned, or_and_right, exists_or]

theorem carried_activity {e : FlowElement} (h : e.activity? = some a) {id : Id} {f : Feature} :
    (Element.flowElement e).Carried id f ↔
      (id = a.base.id ∧ a.Carries f) ∨ ∃ c ∈ (Element.flowElement e).children, c.Carried id f := by
  have hid : (Element.flowElement e).id = a.base.id := by
    cases e with
    | task | callActivity | subProcess =>
      cases h
      rfl
    | gateway | event | sequenceFlow => cases h
  rw [Element.carried_iff, carries_iff h, hid]

theorem readFrom_gateway {g : Gateway} (h : g.base.identity.extensionValues = []) :
    (gateway g).ReadFrom (((g.edges.onNode (g.base.node g.type.label)).setWord "gatewayDirection"
      g.direction).setRef? "default" g.defaultFlow) := by
  have hlabel : (((g.edges.onNode (g.base.node g.type.label)).setWord "gatewayDirection"
      g.direction).setRef? "default" g.defaultFlow).label = g.type.label := by
    simp [g.edges.differsIn.label]
  refine ⟨hlabel, ?_⟩
  intro parent
  have hnames : g.type.label ≠ "sequenceFlow" ∧ EventPosition.form? g.type.label = none ∧
      GatewayType.ofLabel? g.type.label = some g.type := by
    cases g.type <;> exact ⟨by simp [GatewayType.label], rfl, rfl⟩
  obtain ⟨hflow, hevent, htype⟩ := hnames
  simp only [ofNode_eq, hlabel, hflow, hevent, htype, Gateway.ofNode_node h, if_false, map_ok]

theorem readFrom_event {e : Event} (h : e.base.identity.extensionValues = []) :
    (event e).ReadFrom ((e.position.onNode (e.edges.onNode (e.base.node e.position.label))).pushAll
      (e.definitions.map EventDefinition.toNode)) := by
  obtain ⟨form, hform, hread⟩ := Event.ofNode_node h
  obtain ⟨fields, read, -, -, hposition⟩ := e.position.read_onNode
  have hlabel : ((e.position.onNode (e.edges.onNode (e.base.node e.position.label))).pushAll
      (e.definitions.map EventDefinition.toNode)).label = e.position.label := by
    rw [Node.label_pushAll, (hposition _).1.label, e.edges.differsIn.label, FlowBase.label_node]
  refine ⟨hlabel, ?_⟩
  intro parent
  have hflow : e.position.label ≠ "sequenceFlow" := by
    cases e.position <;> simp [EventPosition.label]
  simp only [ofNode_eq, hlabel, hflow, hform, hread, if_false, map_ok]

/-- An element that is no activity holds nothing but, maybe, extension values. -/
theorem carried_base {e : FlowElement} (h : e.activity? = none) {id : Id} {f : Feature} :
    (Element.flowElement e).Carried id f ↔
      id = e.base.id ∧ f = .extensionValues ∧ e.base.identity.extensionValues ≠ [] := by
  have hholds : ∀ f, ¬ (Element.flowElement e).Holds f := by
    intro f hf
    cases hf with
    | dataSpecification ha => simp [h] at ha
    | resourceRoles ha => simp [h] at ha
  have hchildren : (Element.flowElement e).children = [] := by
    cases e with
    | task | callActivity | subProcess => cases h
    | gateway | event | sequenceFlow => rfl
  have hidentity : (Element.flowElement e).identity = e.base.identity := by
    cases e <;> rfl
  rw [Element.carried_iff, hchildren, Element.Carries, Element.id, hidentity, FlowBase.id]
  simp [hholds]

theorem base_writes {e : FlowElement} (h : e.activity? = none) {label : String} {next : Node → Node}
    {good : Node → Prop}
    (hgood : e.base.identity.extensionValues = [] → good (next (e.base.node label))) :
    Writes (do let n ← e.base.toNode label; return next n) (Element.flowElement e).Carried good := by
  refine ((e.base.toNode_writes label).map fun n hn => ?_).congr fun id f => (carried_base h).symm
  obtain ⟨rfl, hv⟩ := hn
  exact hgood hv

theorem writes {e : FlowElement} (ha : e.Assembled) :
    Writes e.toNode (Element.flowElement e).Carried e.reread.ReadFrom := by
  induction e using contents_induction with
  | step e ih =>
    cases e with
    | task a w =>
      rw [toNode]
      refine ((a.toNode_writes w.label).map fun n hn => ?_).congr fun id f => ?_
      · obtain ⟨rfl, hplain⟩ := hn
        exact readFrom_task hplain w
      · rw [carried_activity rfl]
        simp [Element.children]
    | callActivity a called =>
      rw [toNode]
      refine ((a.toNode_writes "callActivity").map fun n hn => ?_).congr fun id f => ?_
      · obtain ⟨rfl, hplain⟩ := hn
        exact readFrom_callActivity hplain
      · rw [carried_activity rfl]
        simp [Element.children]
    | subProcess a triggeredByEvent es ls as =>
      rw [toNode]
      have hes : ∀ e ∈ es, Writes e.toNode (Element.flowElement e).Carried e.reread.ReadFrom :=
        fun e he => ih ⟨es, ls⟩ rfl e he ((ha.complete rfl).inner e he)
      have hreread := ha.reread
      rw [reread, allReread_eq] at hreread ⊢
      refine ((a.toNode_writes "subProcess").bind fun n hn =>
        (contents_writes hes _).imp fun m hm => ?_).congr fun id f => ?_
      · obtain ⟨rfl, hplain⟩ := hn
        obtain ⟨ens, lns, ans, rfl, hens, hlns, hans⟩ := hm
        exact readFrom_subProcess hplain hreread hens hlns hans
      · exact (carried_activity (e := subProcess a triggeredByEvent es ls as) rfl).symm
    | gateway g => exact base_writes (e := gateway g) rfl readFrom_gateway
    | event e => exact base_writes (e := event e) rfl readFrom_event
    | sequenceFlow f =>
      refine base_writes (e := sequenceFlow f) rfl fun hv => ⟨by simp [label, reread], ?_⟩
      intro parent
      simp only [ofNode_eq]
      rw [if_pos (by simp)]
      exact map_eq_ok.mpr ⟨f, SequenceFlow.ofNode_node hv, rfl⟩

end FlowElement

end BpmnModel
