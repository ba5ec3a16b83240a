import BpmnModel.Proofs.Tally
import Mathlib.Data.List.Dedup

/-!
# Shared definitions and artifacts, nothing missing

For each kind, `recorded` says that what was read from a node is written, with as many nodes of each
label as are kept of that node, and that every attribute was read.

* `Expression.recordsBelow` — of the expressions below a node the last in each role counts.
* `Artifact.ReadFrom.recorded`, `CorrelationProperty.recorded` — kinds that contain no flow.
-/

namespace BpmnModel

variable {n : Node}

/-! ## Elements that own nothing -/

namespace EndPoint

theorem recorded {e : EndPoint} (hlabel : n.label = "endPoint") (h : ofNode n = .ok e) :
    Recorded e.toNode n := by
  rw [toNode, ← bind_pure (Identity.toNode "endPoint" _)]
  exact .leaf hlabel rfl (by decide) (isLeaf_of_read h) fun _ => ⟨rfl, rfl⟩

end EndPoint

namespace Message

theorem recorded {m : Message} (hlabel : n.label = "message") (h : ofNode n = .ok m) :
    Recorded m.toNode n :=
  .leaf hlabel rfl (by decide) (isLeaf_of_read h) (by simp)

end Message

namespace ItemDefinition

theorem recorded {d : ItemDefinition} (hlabel : n.label = "itemDefinition") (h : ofNode n = .ok d) :
    Recorded d.toNode n :=
  .leaf hlabel rfl (by decide) (isLeaf_of_read h) (by simp)

end ItemDefinition

namespace ErrorDefinition

theorem recorded {e : ErrorDefinition} (hlabel : n.label = "error") (h : ofNode n = .ok e) :
    Recorded e.toNode n :=
  .leaf hlabel rfl (by decide) (isLeaf_of_read h) (by simp)

end ErrorDefinition

namespace Escalation

theorem recorded {e : Escalation} (hlabel : n.label = "escalation") (h : ofNode n = .ok e) :
    Recorded e.toNode n :=
  .leaf hlabel rfl (by decide) (isLeaf_of_read h) (by simp)

end Escalation

namespace ResourceParameter

theorem recorded {p : ResourceParameter} (hlabel : n.label = "resourceParameter")
    (h : ofNode n = .ok p) : Recorded p.toNode n :=
  .leaf hlabel rfl (by decide) (isLeaf_of_read h) (by simp)

end ResourceParameter

namespace CategoryValue

theorem recorded {v : CategoryValue} (hlabel : n.label = "categoryValue") (h : ofNode n = .ok v) :
    Recorded v.toNode n :=
  .leaf hlabel rfl (by decide) (isLeaf_of_read h) (by simp)

end CategoryValue

namespace Operation

theorem recorded {o : Operation} (hlabel : n.label = "operation") (h : ofNode n = .ok o) :
    Recorded o.toNode n :=
  .leaf hlabel rfl (by decide) (isLeaf_of_read h) (by simp)

end Operation

namespace Relationship

theorem recorded {r : Relationship} (hlabel : n.label = "relationship") (h : ofNode n = .ok r) :
    Recorded r.toNode n :=
  .leaf hlabel rfl (by decide) (isLeaf_of_read h) (by simp)

end Relationship

namespace Lane

theorem recorded {l : Lane} (hlabel : n.label = "lane") (h : ofNode n = .ok l) :
    Recorded l.toNode n :=
  .leaf hlabel rfl (by decide) (isLeaf_of_read h) (by simp)

end Lane

/-! ## Artifacts -/

namespace Association

theorem recorded {a : Association} (hlabel : n.label = "association") (h : ofNode n = .ok a) :
    Recorded a.toNode n :=
  .leaf hlabel rfl (by decide) (isLeaf_of_read h) (by simp)

end Association

namespace Group

theorem recorded {g : Group} (hlabel : n.label = "group") (h : ofNode n = .ok g) :
    Recorded g.toNode n :=
  .leaf hlabel rfl (by decide) (isLeaf_of_read h) (by simp)

end Group

namespace TextNote

theorem recorded {t : TextNote} (hlabel : n.label = "textAnnotation") (h : ofNode n = .ok t) :
    Recorded t.toNode n :=
  .leaf hlabel rfl (by decide) (isLeaf_of_read h) (by simp)

end TextNote

namespace Artifact

theorem ReadFrom.recorded {a : Artifact} (h : a.ReadFrom n) : Recorded a.toNode n := by
  obtain ⟨read, hread, hn⟩ := h
  unfold reader? at hread
  split at hread
  · rename_i hlabel
    cases hread
    obtain ⟨a, ha, rfl⟩ := map_eq_ok.mp hn
    exact Association.recorded hlabel ha
  · rename_i hlabel
    cases hread
    obtain ⟨g, hg, rfl⟩ := map_eq_ok.mp hn
    exact Group.recorded hlabel hg
  · rename_i hlabel
    cases hread
    obtain ⟨t, ht, rfl⟩ := map_eq_ok.mp hn
    exact TextNote.recorded hlabel ht
  · cases hread

end Artifact

/-! ## Elements with children of one kind -/

namespace Resource

theorem recorded {r : Resource} (hlabel : n.label = "resource") (h : ofNode n = .ok r) :
    Recorded r.toNode n := by
  obtain ⟨hbears, hparameters⟩ := bears_of_read h
  exact .branch hlabel rfl (by decide) hbears hparameters (fun _ _ => ResourceParameter.recorded)
    (by simp)

end Resource

namespace Category

theorem recorded {c : Category} (hlabel : n.label = "category") (h : ofNode n = .ok c) :
    Recorded c.toNode n := by
  obtain ⟨hbears, hvalues⟩ := bears_of_read h
  exact .branch hlabel rfl (by decide) hbears hvalues (fun _ _ => CategoryValue.recorded) (by simp)

end Category

namespace Interface

theorem recorded {i : Interface} (hlabel : n.label = "interface") (h : ofNode n = .ok i) :
    Recorded i.toNode n := by
  obtain ⟨hbears, hoperations⟩ := bears_of_read h
  exact .branch hlabel rfl (by decide) hbears hoperations (fun _ _ => Operation.recorded) (by simp)

end Interface

namespace LaneSet

theorem recorded {s : LaneSet} (hlabel : n.label = "laneSet") (h : ofNode n = .ok s) :
    Recorded s.toNode n := by
  obtain ⟨hbears, hlanes⟩ := bears_of_read h
  exact .branch hlabel rfl (by decide) hbears hlanes (fun _ _ => Lane.recorded) (by simp)

end LaneSet

/-! ## Expressions -/

namespace Expression

theorem fieldsOf_role {role : String} (h : Node.isExpression role = true) :
    Node.fieldsOf role = ["body", "formal", "language", "evaluatesToTypeRef"] := by
  simp only [Node.isExpression, List.contains_cons, List.contains_nil, Bool.or_false,
    Bool.or_eq_true, beq_iff_eq] at h
  rcases h with rfl | rfl | rfl | rfl | rfl <;> rfl

theorem content_of_read {e : Expression} (h : ofNode n = .ok e) :
    n.content = [] ∧ n.Closed ["body", "formal", "language", "evaluatesToTypeRef"] := by
  simp only [ofNode, bind_eq_ok] at h
  obtain ⟨body, -, formal, -, h⟩ := h
  split at h
  · simp only [bind_eq_ok] at h
    obtain ⟨language, -, type, -, ⟨⟩, hfinish, ⟨⟩, hcontent, -⟩ := h
    exact ⟨n.noContent_eq_ok.mp hcontent, n.finish_eq_ok.mp hfinish⟩
  · simp only [bind_eq_ok] at h
    obtain ⟨⟨⟩, hfinish, ⟨⟩, hcontent, -⟩ := h
    refine ⟨n.noContent_eq_ok.mp hcontent, fun a ha => ?_⟩
    exact List.mem_append_left ["language", "evaluatesToTypeRef"] (n.finish_eq_ok.mp hfinish a ha)

@[simp]
theorem children_toNode (role : String) (e : Expression) : (e.toNode role).children = [] := by
  cases e with
  | informal body => simp [toNode]
  | formal e => simp [toNode, FormalExpression.toNode]

/-- Nodes below a node are expressions, each in one of these roles. -/
def AllRead (roles : List String) (cs : List Node) : Prop :=
  ∀ c ∈ cs, c.label ∈ roles ∧ ∃ e, ofNode c = .ok e

variable {roles : List String} {cs : List Node} {parent : String}

theorem identified_role {role : String} (h : Node.isExpression role = true) :
    Node.identified role = false := by
  rw [Node.identified, fieldsOf_role h]
  decide

/-- Of several expressions in one role the last is kept. -/
theorem labels_childrenBut (hroles : ∀ role ∈ roles, Node.isExpression role = true)
    (h : AllRead roles cs) :
    (Node.childrenBut Node.overlooked parent cs).map Node.label = (cs.map Node.label).dedup := by
  induction cs with
  | nil => simp [Node.childrenBut]
  | cons c cs ih =>
    obtain ⟨hrole, e, he⟩ := h c List.mem_cons_self
    have hexpression := hroles c.label hrole
    have hrest := ih fun d hd => h d (List.mem_cons_of_mem c hd)
    have hdoc : c.isDocumentation = false := by
      by_contra hdoc
      rw [Node.not_expression_of_documentation (by simpa using hdoc)] at hexpression
      cases hexpression
    have hlost : Node.overlooked parent c cs = true ↔ c.label ∈ cs.map Node.label := by
      simp [Node.overlooked, Node.unheard, hdoc, hexpression]
    have hkept : Node.nodesBut Node.overlooked c = [c] :=
      Node.kept_of_anonymous (identified_role hexpression) (content_of_read he).1
    rw [Node.childrenBut, List.map_cons]
    split
    · rename_i h
      rw [List.dedup_cons_of_mem (hlost.mp h), hrest]
    · rename_i h
      rw [List.dedup_cons_of_notMem fun hmem => h (hlost.mpr hmem), hkept, ← hrest]
      rfl

/-- What is written in the roles that were found. -/
theorem labels_toNodes (found : String → Option Expression) (roles : List String) :
    ((roles.flatMap fun role => toNodes role (found role)).flatMap Node.nodes).map Node.label =
      roles.filter fun role => (found role).isSome := by
  induction roles with
  | nil => rfl
  | cons role roles ih =>
    rw [List.flatMap_cons, List.flatMap_append, List.map_append, ih, List.filter_cons]
    cases found role with
    | none => rfl
    | some e => simp [toNodes, Node.nodes_eq]

/-- **Expressions below a node**: all are read, and the last in each role is written. -/
theorem recordsBelow {found : String → Option Expression} (hnd : roles.Nodup)
    (hroles : ∀ role ∈ roles, Node.isExpression role = true) (h : AllRead roles cs)
    (hfound : ∀ role ∈ roles, (found role).isSome = true ↔ role ∈ cs.map Node.label) :
    Node.RecordsBelow (roles.flatMap fun role => toNodes role (found role)) parent cs where
  counts label := by
    rw [Node.tally, Node.tally, labels_toNodes, labels_childrenBut hroles h]
    refine List.Perm.count_eq ?_ label
    rw [List.perm_ext_iff_of_nodup (hnd.filter _) (List.nodup_dedup _)]
    intro role
    rw [List.mem_filter, List.mem_dedup]
    constructor
    · exact fun hrole => (hfound role hrole.1).mp hrole.2
    · intro hmem
      obtain ⟨c, hc, rfl⟩ := List.mem_map.mp hmem
      exact ⟨(h c hc).1, (hfound _ (h c hc).1).mpr hmem⟩
  known c hc _ := by
    obtain ⟨hrole, e, he⟩ := h c hc
    obtain ⟨hcontent, hclosed⟩ := content_of_read he
    have hexpression := hroles c.label hrole
    refine Node.known_of_anonymous (identified_role hexpression) hcontent ?_
    rwa [fieldsOf_role hexpression]

end Expression

/-! ## Correlation properties -/

namespace RetrievalExpression

theorem allRead_of_path {owner : Id} {cs : List Node} {found : Option FormalExpression}
    {path : FormalExpression} (h : pathOfNodes owner n cs found = .ok path) :
    Expression.AllRead ["messagePath"] cs ∧ (found = none → "messagePath" ∈ cs.map Node.label) := by
  induction cs generalizing found with
  | nil =>
    cases found with
    | none => cases h
    | some e => exact ⟨nofun, nofun⟩
  | cons c cs ih =>
    rw [pathOfNodes] at h
    split at h
    · rename_i hrole
      obtain ⟨e, he, h⟩ := bind_eq_ok.mp h
      cases e with
      | informal body => cases h
      | formal e =>
        refine ⟨List.forall_mem_cons.mpr ⟨⟨by simp [hrole], _, he⟩, (ih h).1⟩, fun _ => ?_⟩
        rw [List.map_cons, hrole]
        exact List.mem_cons_self
    · cases h

theorem records {owner : Id} {e : RetrievalExpression}
    (hlabel : n.label = "correlationPropertyRetrievalExpression") (h : ofNode owner n = .ok e) :
    e.toNode.Records n := by
  simp only [ofNode, bind_eq_ok, pure_eq_ok, Except.ok.injEq] at h
  obtain ⟨ref, -, ⟨⟩, hfinish, path, hpath, rfl⟩ := h
  obtain ⟨hread, hmem⟩ := allRead_of_path hpath
  have hchildren : (toNode ⟨path, ref⟩).children =
      ["messagePath"].flatMap fun role => Expression.toNodes role (some (.formal path)) := by
    simp [toNode, Expression.toNodes, Expression.toNode]
  refine .of_children ?_ (Recorded.closed_of_finish hlabel hfinish rfl) ?_ ?_
  · rw [label_toNode, hlabel]
  · rw [hlabel]
    decide
  · rw [hchildren]
    refine Expression.recordsBelow (List.nodup_singleton _) (by decide) hread ?_
    simpa using hmem rfl

end RetrievalExpression

namespace CorrelationProperty

/-- Retrieval expressions are written without fail. -/
theorem toNode_eq (p : CorrelationProperty) : p.toNode = (do
    let n ← p.identity.toNode "correlationProperty"
    let ns ← p.retrievals.mapM fun e => Except.ok e.toNode
    return ((n.setText? "name" p.name).setRef? "type" p.type).pushAll ns) := by
  have hmap : p.retrievals.mapM (fun e => (.ok e.toNode : Except DocumentError Node)) =
      .ok (p.retrievals.map RetrievalExpression.toNode) := List.mapM_pure
  rw [hmap]
  rfl

theorem recorded {p : CorrelationProperty} (hlabel : n.label = "correlationProperty")
    (h : ofNode n = .ok p) : Recorded p.toNode n := by
  obtain ⟨hbears, hretrievals⟩ := bears_of_read h
  rw [toNode_eq]
  exact .branch hlabel rfl (by decide) hbears hretrievals
    (fun c e hc he => ⟨_, rfl, RetrievalExpression.records hc he⟩) (by simp)

end CorrelationProperty

end BpmnModel
