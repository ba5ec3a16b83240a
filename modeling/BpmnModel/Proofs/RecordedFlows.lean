import BpmnModel.Proofs.RecordedDefinitions

/-!
# Flow elements and processes, nothing missing

Wiring changes which flows are listed at a node, and with it the attributes that are written, but
neither labels nor children, so that an element is counted the same before and after.

* `Loop.records`, `EventDefinition.records` — what stands below flow nodes.
* `FlowElement.Recorded.mapEdges` — the listed flows do not matter.
* `FlowElement.sorted_of_contentsOfNodes` — each child of a container went to one of three lists.
* `FlowElement.recorded`, `Process.recorded` — the main results.
-/

namespace BpmnModel

variable {n : Node}

/-! ## Fields that are told by labels -/

namespace EventPosition

variable {label : String} {fields : List String} {read : Node → Reading EventPosition}

theorem fieldsOf_form (h : form? label = some (fields, read)) :
    Node.fieldsOf label = FlowBase.fields ++ Edges.fields ++ fields ∧
      Node.identified label = true ∧ Node.isExpression label = false := by
  unfold form? at h
  split at h <;> cases h
  all_goals exact ⟨rfl, by decide, by decide⟩

theorem label_of_read (hform : form? label = some (fields, read)) {p : EventPosition}
    (h : read n = .ok p) : p.label = label := by
  unfold form? at hform
  split at hform <;> cases hform
  · obtain ⟨b, -, rfl⟩ := map_eq_ok.mp h
    rfl
  · cases h
    rfl
  · cases h
    rfl
  · cases h
    rfl
  · simp only [bind_eq_ok, pure_eq_ok, Except.ok.injEq] at h
    obtain ⟨attachedTo, -, cancelActivity, -, rfl⟩ := h
    rfl

theorem alike_onNode (p : EventPosition) (n : Node) :
    (p.onNode n).label = n.label ∧ (p.onNode n).children = n.children := by
  cases p <;> simp [onNode]

end EventPosition

namespace GatewayType

variable {label : String} {type : GatewayType}

theorem fieldsOf_ofLabel (h : ofLabel? label = some type) : type.label = label ∧
    Node.fieldsOf label = FlowBase.fields ++ Edges.fields ++ ["gatewayDirection", "default"] ∧
      Node.identified label = true ∧ Node.isExpression label = false := by
  have hlabel : type.label = label := by simpa using List.find?_some h
  subst hlabel
  cases type <;> exact ⟨rfl, rfl, by decide, by decide⟩

end GatewayType

namespace TaskWork

variable {label : String} {fields : List String} {read : Node → Reading TaskWork}

theorem fieldsOf_form (h : form? label = some (fields, read)) :
    Node.fieldsOf label = Activity.fields ++ fields ∧
      Node.identified label = true ∧ Node.isExpression label = false := by
  unfold form? at h
  split at h <;> cases h
  all_goals exact ⟨rfl, by decide, by decide⟩

theorem label_of_read (hform : form? label = some (fields, read)) {w : TaskWork}
    (h : read n = .ok w) : w.label = label := by
  unfold form? at hform
  split at hform <;> cases hform
  · cases h
    rfl
  · simp only [bind_eq_ok, pure_eq_ok, Except.ok.injEq] at h
    obtain ⟨i, -, o, -, rfl⟩ := h
    rfl
  · simp only [bind_eq_ok, pure_eq_ok, Except.ok.injEq] at h
    obtain ⟨i, -, m, -, o, -, rfl⟩ := h
    rfl
  · simp only [bind_eq_ok, pure_eq_ok, Except.ok.injEq] at h
    obtain ⟨i, -, b, -, m, -, o, -, rfl⟩ := h
    rfl
  · obtain ⟨i, -, rfl⟩ := map_eq_ok.mp h
    rfl
  · simp only [bind_eq_ok, pure_eq_ok, Except.ok.injEq] at h
    obtain ⟨f, -, t, -, rfl⟩ := h
    rfl
  · simp only [bind_eq_ok, pure_eq_ok, Except.ok.injEq] at h
    obtain ⟨i, -, rs, -, rfl⟩ := h
    rfl
  · cases h
    rfl

theorem alike_onNode (w : TaskWork) (n : Node) :
    (w.onNode n).label = n.label ∧ (w.onNode n).children = n.children := by
  cases w <;> simp [onNode, Implementation.onNode]

end TaskWork

/-! ## Sequence flows, gateways and events -/

/-- A flow element is written from its base. -/
theorem Recorded.base {b : FlowBase} {label : String} {ms : List Node} {next : Node → Node}
    (hi : n.Identifies b.identity) (hlabel : n.label = label)
    (hclosed : n.Closed (Node.fieldsOf n.label))
    (hlabels : Node.identified label = true ∧ Node.isExpression label = false)
    (h : Node.RecordsBelow ms n.label n.content)
    (hnext : ∀ m, (next m).label = m.label ∧ (next m).children = m.children ++ ms) :
    Recorded (do let m ← b.toNode label; return next m) n := by
  subst hlabel
  obtain ⟨hl, hc⟩ := hnext (b.node n.label)
  refine ⟨next (b.node n.label), ?_, .of_content hi hlabels.1 hclosed hlabels.2 h ?_ ?_⟩
  · rw [FlowBase.toNode, Identity.toNode, hi.extensionValues]
    rfl
  · rw [hl, FlowBase.label_node]
  · rw [hc]
    simp [FlowBase.node]

namespace SequenceFlow

theorem allRead_of_condition {cs : List Node} {found condition : Option Expression}
    (h : conditionOfNodes n cs found = .ok condition) :
    Expression.AllRead ["conditionExpression"] cs ∧
      (condition.isSome = true ↔
        found.isSome = true ∨ "conditionExpression" ∈ cs.map Node.label) := by
  induction cs generalizing found with
  | nil =>
    cases h
    exact ⟨nofun, by simp⟩
  | cons c cs ih =>
    rw [conditionOfNodes] at h
    split at h
    · rename_i hrole
      obtain ⟨e, he, h⟩ := bind_eq_ok.mp h
      obtain ⟨hread, hsome⟩ := ih h
      exact ⟨List.forall_mem_cons.mpr ⟨⟨by simp [hrole], e, he⟩, hread⟩, by simp [hsome, hrole]⟩
    · cases h

theorem recorded {f : SequenceFlow} (hlabel : n.label = "sequenceFlow") (h : ofNode n = .ok f) :
    Recorded f.toNode n := by
  simp only [ofNode, bind_eq_ok, pure_eq_ok, Except.ok.injEq] at h
  obtain ⟨base, hbase, source, -, target, -, isImmediate, -, ⟨⟩, hfinish, condition, hcondition,
    rfl⟩ := h
  obtain ⟨hread, hsome⟩ := allRead_of_condition hcondition
  have hbelow : Node.RecordsBelow (["conditionExpression"].flatMap fun role =>
      Expression.toNodes role condition) n.label n.content :=
    Expression.recordsBelow (List.nodup_singleton _) (by decide) hread (by simpa using hsome)
  exact .base (FlowBase.identifies hbase) hlabel (Recorded.closed_of_finish hlabel hfinish rfl)
    (by decide) hbelow (by simp)

end SequenceFlow

namespace Gateway

theorem recorded {type : GatewayType} {g : Gateway}
    (hlabel : GatewayType.ofLabel? n.label = some type) (h : ofNode type n = .ok g) : Recorded g.toNode n := by
  simp only [ofNode, bind_eq_ok, pure_eq_ok, Except.ok.injEq] at h
  obtain ⟨base, hbase, edges, -, direction, -, flow, -, ⟨⟩, hfinish, ⟨⟩, hcontent, rfl⟩ := h
  obtain ⟨htype, hfields, hlabels⟩ := GatewayType.fieldsOf_ofLabel hlabel
  exact .base (FlowBase.identifies hbase) htype.symm
    (Recorded.closed_of_finish rfl hfinish hfields) (htype ▸ hlabels)
    (Node.recordsBelow_of_content (n.noContent_eq_ok.mp hcontent)) (by simp [Edges.onNode])

end Gateway

namespace EventDefinition

theorem records {parent : String} {d : EventDefinition} (h : ofNode parent n = .ok d) :
    d.toNode.Records n := by
  unfold ofNode at h
  split at h
  · rename_i hlabel
    simp only [bind_eq_ok, pure_eq_ok, Except.ok.injEq] at h
    obtain ⟨m, -, o, -, ⟨⟩, hfinish, ⟨⟩, hcontent, rfl⟩ := h
    exact Recorded.records_of_anonymous hlabel rfl (by decide) hfinish hcontent (by simp [toNode])
  · rename_i hlabel
    simp only [bind_eq_ok, pure_eq_ok, Except.ok.injEq] at h
    obtain ⟨e, -, ⟨⟩, hfinish, ⟨⟩, hcontent, rfl⟩ := h
    exact Recorded.records_of_anonymous hlabel rfl (by decide) hfinish hcontent (by simp [toNode])
  · rename_i hlabel
    simp only [bind_eq_ok, pure_eq_ok, Except.ok.injEq] at h
    obtain ⟨e, -, ⟨⟩, hfinish, ⟨⟩, hcontent, rfl⟩ := h
    exact Recorded.records_of_anonymous hlabel rfl (by decide) hfinish hcontent (by simp [toNode])
  · rename_i hlabel
    simp only [bind_eq_ok, pure_eq_ok, Except.ok.injEq] at h
    obtain ⟨⟨⟩, hfinish, ⟨⟩, hcontent, rfl⟩ := h
    exact Recorded.records_of_anonymous hlabel rfl (by decide) hfinish hcontent (by simp [toNode])
  · cases h

end EventDefinition

namespace Event

theorem recorded {form : List String × (Node → Reading EventPosition)} {e : Event}
    (hform : EventPosition.form? n.label = some form) (h : ofNode form n = .ok e) :
    Recorded e.toNode n := by
  obtain ⟨fields, read⟩ := form
  simp only [ofNode, bind_eq_ok, checked_eq_ok] at h
  obtain ⟨base, hbase, edges, -, position, hposition, ⟨⟩, hfinish, definitions, hdefinitions,
    hof⟩ := h
  obtain ⟨hfields, hlabels⟩ := EventPosition.fieldsOf_form hform
  have hlabel := EventPosition.label_of_read hform hposition
  unfold Event.of at hof
  split at hof
  · cases hof
    have hall : List.Forall₂ Node.Records (definitions.map EventDefinition.toNode) n.content := by
      rw [List.forall₂_map_left_iff]
      exact (Node.forall₂_of_mapM hdefinitions).imp fun d c hc => EventDefinition.records hc.2
    refine .base (FlowBase.identifies hbase) hlabel.symm
      (Recorded.closed_of_finish rfl hfinish hfields) (hlabel ▸ hlabels)
      (Node.RecordsAll.of_forall₂ hall).below_content fun m => ?_
    obtain ⟨hl, hc⟩ := position.alike_onNode (edges.onNode m)
    refine ⟨hl.trans edges.differsIn.label, ?_⟩
    rw [Node.children_pushAll, hc, edges.differsIn.children]
  · cases hof

end Event

/-! ## Loops and activities -/

namespace Loop

theorem allRead_of_expressions {roles : List String} {cs : List Node}
    {found result : List (String × Expression)}
    (h : expressionsOfNodes n roles cs found = .ok result) :
    Expression.AllRead roles cs ∧ ∀ role, (result.lookup role).isSome = true ↔
      (found.lookup role).isSome = true ∨ role ∈ cs.map Node.label := by
  induction cs generalizing found with
  | nil =>
    cases h
    exact ⟨nofun, by simp⟩
  | cons c cs ih =>
    rw [expressionsOfNodes] at h
    split at h
    · rename_i hrole
      obtain ⟨e, he, h⟩ := bind_eq_ok.mp h
      obtain ⟨hread, hsome⟩ := ih h
      refine ⟨List.forall_mem_cons.mpr ⟨⟨by simpa using hrole, e, he⟩, hread⟩, fun role => ?_⟩
      rw [hsome, List.lookup_cons, List.map_cons, List.mem_cons]
      by_cases heq : role = c.label
      · simp [heq]
      · simp [heq, show (role == c.label) = false by simpa using heq]
    · cases h

/-- The expressions below a loop are written in the order of their roles. -/
theorem recordsBelow {roles : List String} {cs : List Node} {result : List (String × Expression)}
    (hnd : roles.Nodup) (hroles : ∀ role ∈ roles, Node.isExpression role = true)
    (h : expressionsOfNodes n roles cs [] = .ok result) :
    Node.RecordsBelow (roles.flatMap fun role => Expression.toNodes role (result.lookup role))
      n.label cs := by
  obtain ⟨hread, hsome⟩ := allRead_of_expressions h
  exact Expression.recordsBelow hnd hroles hread fun role _ => by simpa using hsome role

theorem records {l : Loop} (hloop : isLoop n = true) (h : ofNode n = .ok l) :
    l.toNode.Records n := by
  unfold ofNode at h
  split at h
  · rename_i hlabel
    simp only [bind_eq_ok, pure_eq_ok, Except.ok.injEq] at h
    obtain ⟨b, -, m, -, found, hfound, ⟨⟩, hfinish, rfl⟩ := h
    have hbelow := recordsBelow (List.nodup_singleton _) (by decide) hfound
    refine .of_children (by simp [toNode, hlabel]) (Recorded.closed_of_finish hlabel hfinish rfl)
      (by rw [hlabel]; decide) ?_
    simpa [toNode] using hbelow
  · rename_i hlabel
    have hlabel : n.label = "multiInstanceLoopCharacteristics" := by
      simpa [isLoop, hlabel] using hloop
    simp only [bind_eq_ok, pure_eq_ok, Except.ok.injEq] at h
    obtain ⟨b, -, found, hfound, ⟨⟩, hfinish, rfl⟩ := h
    have hbelow := recordsBelow (by decide) (by decide) hfound
    refine .of_children (by simp [toNode, hlabel]) (Recorded.closed_of_finish hlabel hfinish rfl)
      (by rw [hlabel]; decide) ?_
    simpa [toNode] using hbelow

end Loop

namespace Activity

variable {act : Activity}

/-- The loop is written for the child that describes it. -/
theorem recordsAll_loopNodes {d : ActivityDraft} (h : ofNode n = .ok d)
    (hfinish : d.finish = .ok act) :
    Node.RecordsAll act.loopNodes (n.content.filter Loop.isLoop) := by
  simp only [ofNode, bind_eq_ok, pure_eq_ok, Except.ok.injEq] at h
  obtain ⟨base, hbase, edges, -, c, -, flow, -, refs, -, start, -, completion, -, loop, hloop,
    rfl⟩ := h
  simp only [ActivityDraft.finish, checked_eq_ok, withQuantities, bind_eq_ok, pure_eq_ok,
    Except.ok.injEq] at hfinish
  obtain ⟨start', -, completion', -, rfl⟩ := hfinish
  unfold Loop.ofChildren at hloop
  split at hloop
  · rename_i hnone
    cases hloop
    rw [hnone]
    exact .nil
  · rename_i c hc
    obtain ⟨l, hread, rfl⟩ := map_eq_ok.mp hloop
    have hisLoop : Loop.isLoop c = true := by
      have hmem : c ∈ n.content.filter Loop.isLoop := by simp [hc]
      exact (List.mem_filter.mp hmem).2
    rw [hc]
    exact .of_forall₂ (.cons (Loop.records hisLoop hread) .nil)
  · cases hloop

/-- An activity is written with its loop first. -/
theorem records_node {label : String} {ms : List Node} {m : Node} (h : act.ReadAt n)
    (hlabel : n.label = label) (hclosed : n.Closed (Node.fieldsOf n.label))
    (hlabels : Node.identified label = true ∧ Node.isExpression label = false)
    (hbelow : Node.RecordsAll ms n.content) (hl : m.label = (act.node label).label)
    (hc : m.children = (act.node label).children ++ ms) : m.Records n := by
  subst hlabel
  refine .of_content h.identifies hlabels.1 hclosed hlabels.2 hbelow.below_content ?_ ?_
  · rw [hl, label_node]
  · rw [hc, children_node]

theorem filter_isLoop_of_noContent (h : noContent n = .ok ()) :
    n.content.filter Loop.isLoop = n.content := by
  unfold noContent at h
  split at h
  · rename_i hnone
    refine List.filter_eq_self.mpr fun c hc => ?_
    by_contra hloop
    have hmem : c ∈ n.content.filter (!Loop.isLoop ·) :=
      List.mem_filter.mpr ⟨hc, by simpa using hloop⟩
    rw [hnone] at hmem
    cases hmem
  · cases h

end Activity

/-! ## Wiring -/

/-- Nodes that differ in attributes only count alike. -/
theorem Node.Records.congr {m m' : Node} (h : m.Records n) (hlabel : m'.label = m.label)
    (hchildren : m'.children = m.children) : m'.Records n where
  counts label := by
    rw [← h.counts, nodes_eq, nodes_eq, tally_cons, tally_cons, hlabel, hchildren]
  known := h.known
  plain := h.plain

namespace FlowElement

theorem exists_of_base_toNode {b : FlowBase} {label : String} {next next' : Node → Node} {m : Node}
    (h : (do let x ← b.toNode label; return next x) = .ok m)
    (hnext : ∀ x, (next' x).label = (next x).label ∧ (next' x).children = (next x).children) :
    ∃ m', (do let x ← b.toNode label; return next' x) = .ok m' ∧ m'.label = m.label ∧
      m'.children = m.children := by
  obtain ⟨x, hx, heq⟩ := bind_eq_ok.mp h
  cases heq
  exact ⟨next' x, by rw [hx]; rfl, hnext x⟩

theorem exists_of_activity_toNode {a : Activity} {label : String} {m : Node}
    (h : a.toNode label = .ok m) (edges : Edges) :
    ∃ m', { a with edges }.toNode label = .ok m' ∧ m'.label = m.label ∧
      m'.children = m.children := by
  rcases a.toNode_writes label with ⟨x, hx, ⟨rfl, hplain⟩, -⟩ | ⟨id, f, hx, -⟩
  · cases h.symm.trans hx
    have hplain' : { a with edges }.Plain := ⟨hplain.extensionValues, hplain.data, hplain.resources⟩
    refine ⟨_, hplain'.toNode_eq label, ?_, ?_⟩
    · rw [Activity.label_node, Activity.label_node]
    · rw [Activity.children_node, Activity.children_node]
  · cases h.symm.trans hx

/-- The flows listed at an element change nothing but attributes of its node. -/
theorem exists_of_mapEdges {e : FlowElement} {m : Node} (h : e.toNode = .ok m) (f : Edges → Edges) :
    ∃ m', (e.mapEdges f).toNode = .ok m' ∧ m'.label = m.label ∧ m'.children = m.children := by
  cases e with
  | task a w =>
    rw [toNode] at h
    obtain ⟨x, hx, heq⟩ := bind_eq_ok.mp h
    cases heq
    obtain ⟨x', hx', hlabel, hchildren⟩ := exists_of_activity_toNode hx (f a.edges)
    refine ⟨(w.onNode x').pushAll a.loopNodes, by rw [mapEdges, toNode, hx']; rfl, ?_, ?_⟩
    · rw [Node.label_pushAll, Node.label_pushAll, (w.alike_onNode x').1, (w.alike_onNode x).1,
        hlabel]
    · rw [Node.children_pushAll, Node.children_pushAll, (w.alike_onNode x').2,
        (w.alike_onNode x).2, hchildren]
  | callActivity a called =>
    rw [toNode] at h
    obtain ⟨x, hx, heq⟩ := bind_eq_ok.mp h
    cases heq
    obtain ⟨x', hx', hlabel, hchildren⟩ := exists_of_activity_toNode hx (f a.edges)
    refine ⟨(x'.setRef? "calledElement" called).pushAll a.loopNodes,
      by rw [mapEdges, toNode, hx']; rfl, ?_, ?_⟩
    · simp [hlabel]
    · simp [hchildren]
  | subProcess a t es ls as =>
    rw [toNode] at h
    simp only [bind_eq_ok, pure_eq_ok, Except.ok.injEq] at h
    obtain ⟨x, hx, ens, hens, lns, hlns, ans, hans, rfl⟩ := h
    obtain ⟨x', hx', hlabel, hchildren⟩ := exists_of_activity_toNode hx (f a.edges)
    refine ⟨((x'.setFlag "triggeredByEvent" t false).pushAll a.loopNodes).pushAll
      (ens ++ lns ++ ans), by rw [mapEdges, toNode, hx', hens, hlns, hans]; rfl, ?_, ?_⟩
    · simp [hlabel]
    · simp [hchildren]
  | gateway g =>
    rw [toNode] at h
    exact exists_of_base_toNode h fun x => by simp [Edges.onNode]
  | event e =>
    rw [toNode] at h
    refine exists_of_base_toNode h fun x => ?_
    simp only [Node.label_pushAll, Node.children_pushAll, e.position.alike_onNode,
      (Edges.differsIn _).label, (Edges.differsIn _).children, and_self]
  | sequenceFlow flow => exact ⟨m, h, rfl, rfl⟩

theorem Recorded.mapEdges {e : FlowElement} (h : Recorded e.toNode n) (f : Edges → Edges) :
    Recorded (e.mapEdges f).toNode n := by
  obtain ⟨m, hm, hrecords⟩ := h
  obtain ⟨m', hm', hlabel, hchildren⟩ := exists_of_mapEdges hm f
  exact ⟨m', hm', hrecords.congr hlabel hchildren⟩

end FlowElement

namespace Container

variable {c c' : Container} {good : FlowElement → Node → Prop}

theorem good_foldl_attach (hattach : ∀ e n flow, good e n → good (e.attach flow) n)
    {e : FlowElement} (h : good e n) (flows : List SequenceFlow) :
    good (flows.foldl .attach e) n := by
  induction flows generalizing e with
  | nil => exact h
  | cons flow flows ih => exact ih (hattach e n flow h)

/-- What listing flows preserves holds of the elements of a container, one by one, after
insertions. -/
theorem forall₂_insertAll (hattach : ∀ e n flow, good e n → good (e.attach flow) n)
    {es : List FlowElement} {ns ms : List Node} (hc : List.Forall₂ good c.elements ns)
    (hes : List.Forall₂ good es ms) (hins : c.insertAll es = .ok c') :
    List.Forall₂ good c'.elements (ns ++ ms) := by
  induction hes generalizing c ns with
  | nil =>
    cases hins
    rwa [List.append_nil]
  | @cons e m es ms he _ ih =>
    rw [insertAll] at hins
    split at hins
    · cases hins
    · rename_i d hd
      have hd : List.Forall₂ good d.elements (ns ++ [m]) := by
        obtain ⟨-, ⟨flow, rfl, rfl⟩ | ⟨-, rfl⟩⟩ := insert_cases hd
        · refine List.rel_append ?_ (.cons he .nil)
          rw [List.forall₂_map_left_iff]
          exact hc.imp fun e n => hattach e n flow
        · exact List.rel_append hc (.cons (good_foldl_attach hattach he _) .nil)
      rw [List.append_cons]
      exact ih hd hins

end Container

/-! ## Contents, flow elements and processes -/

namespace FlowElement

variable {parent : String} {skip : Node → Bool}

/-- The nodes that the elements, lane sets and artifacts were read from. -/
structure Contents.SortedFrom (c : Contents) (es ls as : List Node) : Prop where
  elements : List.Forall₂ (fun e n => Recorded e.toNode n) c.elements es
  laneSets : List.Forall₂ (fun s n => Recorded s.toNode n) c.laneSets ls
  artifacts : List.Forall₂ (fun a n => Recorded a.toNode n) c.artifacts as

/-- Every child that is not passed over went to one of three lists. -/
theorem sorted_of_contentsOfNodes {ns : List Node} {c : Contents}
    (hread : ∀ m ∈ ns, ∀ e, ofNode parent m = .ok e → Recorded e.toNode m)
    (h : contentsOfNodes parent skip ns = .ok c) :
    ∃ es ls as, Contents.SortedFrom c es ls as ∧
      (es ++ ls ++ as).Perm (ns.filter fun n => !(n.isDocumentation || skip n)) := by
  induction ns generalizing c with
  | nil =>
    rw [contentsOfNodes] at h
    cases h
    exact ⟨[], [], [], ⟨.nil, .nil, .nil⟩, .nil⟩
  | cons m ns ih =>
    obtain ⟨hreadm, hread⟩ := List.forall_mem_cons.mp hread
    rw [contentsOfNodes] at h
    split at h
    · rename_i hskip
      rw [List.filter_cons, hskip]
      exact ih hread h
    · rename_i hskip
      rw [List.filter_cons, Bool.eq_false_iff.mpr hskip]
      split at h
      · rename_i read hreader
        simp only [bind_eq_ok, pure_eq_ok, Except.ok.injEq] at h
        obtain ⟨a, ha, d, hd, rfl⟩ := h
        obtain ⟨es, ls, as, ⟨hes, hls, has⟩, hperm⟩ := ih hread hd
        refine ⟨es, ls, m :: as, ⟨hes, hls, .cons ?_ has⟩, List.perm_middle.trans (hperm.cons m)⟩
        exact Artifact.ReadFrom.recorded ⟨read, hreader, ha⟩
      · split at h
        · rename_i hlabel
          simp only [bind_eq_ok, pure_eq_ok, Except.ok.injEq] at h
          obtain ⟨s, hs, d, hd, rfl⟩ := h
          obtain ⟨es, ls, as, ⟨hes, hls, has⟩, hperm⟩ := ih hread hd
          refine ⟨es, m :: ls, as, ⟨hes, .cons (LaneSet.recorded hlabel hs) hls, has⟩, ?_⟩
          exact (List.perm_middle.append_right as).trans (hperm.cons m)
        · simp only [bind_eq_ok, pure_eq_ok, Except.ok.injEq] at h
          obtain ⟨e, he, d, hd, rfl⟩ := h
          obtain ⟨es, ls, as, ⟨hes, hls, has⟩, hperm⟩ := ih hread hd
          exact ⟨m :: es, ls, as, ⟨.cons (hreadm e he) hes, hls, has⟩, hperm.cons m⟩

/-- What a container was assembled from is written, in the order of the three lists. -/
theorem recordsAll_of_assemble {ns : List Node} {contents : Contents} {c : Container}
    (hread : ∀ m ∈ ns, ∀ e, ofNode parent m = .ok e → Recorded e.toNode m)
    (hcontents : contentsOfNodes parent skip ns = .ok contents)
    (hassemble : Container.assemble contents.elements contents.laneSets = .ok c) :
    ∃ ens lns ans, allToNodes c.elements = .ok ens ∧ c.laneSets.mapM LaneSet.toNode = .ok lns ∧
      contents.artifacts.mapM Artifact.toNode = .ok ans ∧
      Node.RecordsAll (ens ++ lns ++ ans)
        (ns.filter fun n => !(n.isDocumentation || skip n)) := by
  obtain ⟨es, ls, as, ⟨hes, hls, has⟩, hperm⟩ := sorted_of_contentsOfNodes hread hcontents
  have hnone : List.Forall₂ (fun (e : FlowElement) n => Recorded e.toNode n) [] [] := .nil
  have helements := Container.forall₂_insertAll (fun e m flow he => Recorded.mapEdges he _) hnone
    hes hassemble
  have hlanes : c.laneSets = contents.laneSets := Container.laneSets_insertAll hassemble
  rw [← hlanes] at hls
  obtain ⟨ens, hens, heall⟩ := BpmnModel.Recorded.mapM helements
  obtain ⟨lns, hlns, hlall⟩ := BpmnModel.Recorded.mapM hls
  obtain ⟨ans, hans, haall⟩ := BpmnModel.Recorded.mapM has
  refine ⟨ens, lns, ans, by rw [allToNodes_eq, hens], hlns, hans, ?_⟩
  refine Node.RecordsAll.reorder ?_ (.refl _) hperm
  exact ((Node.RecordsAll.of_forall₂ heall).append (.of_forall₂ hlall)).append (.of_forall₂ haall)

variable {draft : ActivityDraft} {a : Activity}

theorem recorded_task {w : TaskWork} {fields : List String} {read : Node → Reading TaskWork}
    (hform : TaskWork.form? n.label = some (fields, read)) (hdraft : Activity.ofNode n = .ok draft)
    (hcontent : Activity.noContent n = .ok ()) (hw : read n = .ok w)
    (hfinish : n.finish (Activity.fields ++ fields) = .ok ()) (ha : draft.finish = .ok a) :
    Recorded (task a w).toNode n := by
  obtain ⟨hfields, hlabels⟩ := TaskWork.fieldsOf_form hform
  have hlabel := TaskWork.label_of_read hform hw
  have hread := Activity.readAt_of_read hdraft ha
  have hloops := Activity.recordsAll_loopNodes hdraft ha
  rw [Activity.filter_isLoop_of_noContent hcontent] at hloops
  refine ⟨(w.onNode (a.node w.label)).pushAll a.loopNodes, ?_, ?_⟩
  · rw [toNode, hread.toNode_eq]
    rfl
  · exact Activity.records_node hread hlabel.symm (Recorded.closed_of_finish rfl hfinish hfields)
      (hlabel ▸ hlabels) hloops (w.alike_onNode _).1
      (by rw [Node.children_pushAll, (w.alike_onNode _).2])

theorem recorded_callActivity {called : Option (Ref .anyCallable)}
    (hlabel : n.label = "callActivity") (hdraft : Activity.ofNode n = .ok draft)
    (hcontent : Activity.noContent n = .ok ())
    (hfinish : n.finish (Activity.fields ++ ["calledElement"]) = .ok ())
    (ha : draft.finish = .ok a) : Recorded (callActivity a called).toNode n := by
  have hread := Activity.readAt_of_read hdraft ha
  have hloops := Activity.recordsAll_loopNodes hdraft ha
  rw [Activity.filter_isLoop_of_noContent hcontent] at hloops
  refine ⟨((a.node "callActivity").setRef? "calledElement" called).pushAll a.loopNodes, ?_, ?_⟩
  · rw [toNode, hread.toNode_eq]
    rfl
  · exact Activity.records_node hread hlabel (Recorded.closed_of_finish hlabel hfinish rfl)
      (by decide) hloops (by simp) (by simp)

/-- The loop of a sub-process and its contents are told apart by their labels. -/
theorem recorded_subProcess {triggeredByEvent : Bool} {contents : Contents} {c : Container}
    (hlabel : n.label = "subProcess") (hdraft : Activity.ofNode n = .ok draft)
    (hchildren : ∀ m ∈ n.children, ∀ e, ofNode n.label m = .ok e → Recorded e.toNode m)
    (hcontents : contentsOfNodes n.label Loop.isLoop n.children = .ok contents)
    (hassemble : Container.assemble contents.elements contents.laneSets = .ok c)
    (hfinish : n.finish (Activity.fields ++ ["triggeredByEvent"]) = .ok ())
    (ha : draft.finish = .ok a) :
    Recorded (subProcess a triggeredByEvent c.elements c.laneSets contents.artifacts).toNode n := by
  have hread := Activity.readAt_of_read hdraft ha
  have hloops := Activity.recordsAll_loopNodes hdraft ha
  obtain ⟨ens, lns, ans, hens, hlns, hans, hall⟩ :=
    recordsAll_of_assemble hchildren hcontents hassemble
  have hrest : (n.children.filter fun m => !(m.isDocumentation || Loop.isLoop m)) =
      n.content.filter (!Loop.isLoop ·) := by
    rw [Node.content, List.filter_filter]
    simp [Bool.and_comm]
  rw [hrest] at hall
  refine ⟨(((a.node "subProcess").setFlag "triggeredByEvent" triggeredByEvent false).pushAll
    a.loopNodes).pushAll (ens ++ lns ++ ans), ?_, ?_⟩
  · rw [toNode, hread.toNode_eq, hens, hlns, hans]
    rfl
  · exact Activity.records_node hread hlabel (Recorded.closed_of_finish hlabel hfinish rfl)
      (by decide) ((hloops.append hall).reorder (.refl _) (List.filter_append_perm _ _))
      (by simp) (by simp)

/-- **A flow element that was read is written, with nothing missing that is kept of its node.** -/
theorem recorded {parent : String} {e : FlowElement} (h : ofNode parent n = .ok e) :
    Recorded e.toNode n := by
  induction n using Node.children_induction generalizing parent e with
  | step n ih =>
    rw [ofNode_eq] at h
    split at h
    · rename_i hlabel
      obtain ⟨f, hf, rfl⟩ := map_eq_ok.mp h
      exact SequenceFlow.recorded hlabel hf
    split at h
    · rename_i form hform
      obtain ⟨x, hx, rfl⟩ := map_eq_ok.mp h
      exact Event.recorded hform hx
    split at h
    · rename_i type htype
      obtain ⟨g, hg, rfl⟩ := map_eq_ok.mp h
      exact Gateway.recorded htype hg
    split at h
    · rename_i fields read hform
      simp only [bind_eq_ok, pure_eq_ok, Except.ok.injEq] at h
      obtain ⟨draft, hdraft, ⟨⟩, hcontent, w, hw, ⟨⟩, hfinish, a, ha, rfl⟩ := h
      exact recorded_task hform hdraft hcontent hw hfinish ha
    split at h
    · rename_i hlabel
      simp only [bind_eq_ok, pure_eq_ok, Except.ok.injEq] at h
      obtain ⟨draft, hdraft, ⟨⟩, hcontent, called, -, ⟨⟩, hfinish, a, ha, rfl⟩ := h
      exact recorded_callActivity hlabel hdraft hcontent hfinish ha
    split at h
    · rename_i hlabel
      simp only [bind_eq_ok, checked_eq_ok, pure_eq_ok, Except.ok.injEq] at h
      obtain ⟨draft, hdraft, t, -, contents, hcontents, c, hassemble, ⟨⟩, hfinish, a, ha, rfl⟩ := h
      exact recorded_subProcess hlabel hdraft (fun m hm e he => ih m hm he) hcontents hassemble
        hfinish ha
    · cases h

end FlowElement

namespace Process

theorem recorded_of_contents {p : Process} {ens lns ans : List Node} (hlabel : n.label = "process")
    (hi : n.Identifies p.identity) (hclosed : n.Closed (Node.fieldsOf n.label))
    (hr : p.resources = []) (hs : p.subscriptions = [])
    (hens : FlowElement.allToNodes p.container.elements = .ok ens)
    (hlns : p.container.laneSets.mapM LaneSet.toNode = .ok lns)
    (hans : p.artifacts.mapM Artifact.toNode = .ok ans)
    (hall : Node.RecordsAll (ens ++ lns ++ ans) n.content) : Recorded p.toNode n := by
  refine ⟨p.node.pushAll (ens ++ lns ++ ans), ?_, ?_⟩
  · unfold toNode
    rw [hr, hs, hens, hlns, hans, Identity.toNode, hi.extensionValues]
    rfl
  · refine .of_content hi (by rw [hlabel]; decide) hclosed (by rw [hlabel]; decide)
      hall.below_content ?_ ?_
    · simp [node, hlabel]
    · simp [node]

/-- **A process that was read is written, with nothing missing that is kept of its node.** -/
theorem recorded {p : Process} (hlabel : n.label = "process") (h : ofNode n = .ok p) :
    Recorded p.toNode n := by
  simp only [ofNode, bind_eq_ok, checked_eq_ok, pure_eq_ok, Except.ok.injEq] at h
  obtain ⟨id, hid, identity, hi, name, -, type, -, isExecutable, -, isClosed, -, supports, -,
    ref, -, refs, -, ⟨⟩, hfinish, contents, hcontents, c, hassemble, rfl⟩ := h
  obtain ⟨ens, lns, ans, hens, hlns, hans, hall⟩ := FlowElement.recordsAll_of_assemble
    (fun m _ e he => FlowElement.recorded he) hcontents hassemble
  simp only [Bool.or_false] at hall
  exact recorded_of_contents hlabel (.of_read hid hi) (Recorded.closed_of_finish hlabel hfinish rfl)
    rfl rfl hens hlns hans hall

end Process

end BpmnModel
