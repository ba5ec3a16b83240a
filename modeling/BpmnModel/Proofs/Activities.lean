import BpmnModel.Proofs.FlowNodes

/-!
# Activities, written and read back

* `TaskWork.reread` — what the work of a task is taken for when it is read.
* `TaskWork.read_onNode` — what the label of a task tells.
* `Activity.toNode_writes`, `Activity.ofNode_node` — what all activities have.
* `Activity.readAt_of_read` — what reading establishes.
-/

namespace BpmnModel

variable {n : Node} {cs : List Node}

/-! ## Kinds of task -/

namespace Implementation

/-- No other technology goes by a reserved name. -/
def Proper (i : Implementation) : Prop :=
  i ≠ other "##WebService" ∧ i ≠ other "##unspecified"

theorem ofText_text {i : Implementation} (h : i.Proper) : ofText i.text = i := by
  cases i with
  | webService => rfl
  | unspecified => rfl
  | other uri =>
    have hw : uri ≠ "##WebService" := fun heq => h.1 (heq ▸ rfl)
    have hu : uri ≠ "##unspecified" := fun heq => h.2 (heq ▸ rfl)
    rw [ofText, text, if_neg hw, if_neg hu]

/-- What the technology is taken for when its name is read. -/
def reread (i : Implementation) : Implementation := ofText i.text

theorem proper_ofText (text : String) : (ofText text).Proper := by
  unfold ofText
  split
  · simp [Proper]
  · split
    · simp [Proper]
    · exact ⟨by simpa, by simpa⟩

theorem ofNode_ite (i : Implementation) :
    (Option.map ofText (if i = unspecified then none else some i.text)).getD unspecified =
      i.reread := by
  split
  · rename_i heq
    rw [heq]
    rfl
  · rfl

theorem proper_of_read {i : Implementation} (h : ofNode n = .ok i) : i.Proper := by
  obtain ⟨t, -, heq⟩ := bind_eq_ok.mp h
  cases heq
  cases t with
  | none => simp [Proper]
  | some t => exact proper_ofText t

end Implementation

namespace TaskWork

/-- How a task is implemented, where its kind tells. -/
def implementation? : TaskWork → Option Implementation
  | plain | script .. | manual => none
  | service i _ | send i _ _ | receive i _ _ _ | businessRule i | user i _ => some i

/-- No other technology goes by a reserved name. -/
def Proper (w : TaskWork) : Prop := ∀ i, w.implementation? = some i → i.Proper

/-- What the work is taken for when it is read: another technology that goes by a reserved name is
taken for the one that has this name. -/
def reread : TaskWork → TaskWork
  | service i o => service i.reread o
  | send i m o => send i.reread m o
  | receive i instantiate m o => receive i.reread instantiate m o
  | businessRule i => businessRule i.reread
  | user i renderings => user i.reread renderings
  | plain => plain
  | script format text => script format text
  | manual => manual

theorem reread_eq_self {w : TaskWork} (h : w.Proper) : w.reread = w := by
  cases w with
  | plain | script | manual => rfl
  | service i | send i | receive i | businessRule i | user i =>
    have hi : i.reread = i := Implementation.ofText_text (h i rfl)
    rw [reread, hi]

@[simp]
theorem kind_reread (w : TaskWork) : w.reread.kind = w.kind := by
  cases w <;> rfl

@[simp]
theorem label_reread (w : TaskWork) : w.reread.label = w.label := by
  cases w <;> rfl

@[simp]
theorem references_reread (w : TaskWork) : w.reread.references = w.references := by
  cases w <;> rfl

/-- What the label of a kind of task tells is how its fields are read. -/
theorem read_onNode (w : TaskWork) :
    ∃ fields read, form? w.label = some (fields, read) ∧ (∀ a ∈ Activity.fields, a ∉ fields) ∧
      ∀ n : Node, n.DiffersIn fields (w.onNode n) ∧
        ∀ cs, (∀ a ∈ fields, n.attribute? a = none) →
          read ((w.onNode n).pushAll cs) = .ok w.reread := by
  cases w with
  | plain => exact ⟨_, _, rfl, by simp, fun n => ⟨.refl _ n, fun _ _ => rfl⟩⟩
  | manual => exact ⟨_, _, rfl, by simp, fun n => ⟨.refl _ n, fun _ _ => rfl⟩⟩
  | service i o =>
    refine ⟨_, _, rfl, by simp, fun n => ⟨?_, fun cs hn => ?_⟩⟩
    · simpa [onNode, Implementation.onNode] using
        ((Node.DiffersIn.refl _ n).set? (by simp)).set? (by simp)
    · simp at hn
      simp [onNode, Implementation.onNode, Implementation.ofNode, hn,
        Implementation.ofNode_ite, reread]
  | send i m o =>
    refine ⟨_, _, rfl, by simp, fun n => ⟨?_, fun cs hn => ?_⟩⟩
    · simpa [onNode, Implementation.onNode] using
        (((Node.DiffersIn.refl _ n).set? (by simp)).set? (by simp)).set? (by simp)
    · simp at hn
      simp [onNode, Implementation.onNode, Implementation.ofNode, hn,
        Implementation.ofNode_ite, reread]
  | receive i instantiate m o =>
    refine ⟨_, _, rfl, by simp, fun n => ⟨?_, fun cs hn => ?_⟩⟩
    · simpa [onNode, Implementation.onNode] using
        ((((Node.DiffersIn.refl _ n).set? (by simp)).set? (by simp)).set? (by simp)).set? (by simp)
    · simp at hn
      simp [onNode, Implementation.onNode, Implementation.ofNode, hn,
        Implementation.ofNode_ite, reread]
  | businessRule i =>
    refine ⟨_, _, rfl, by simp, fun n => ⟨?_, fun cs hn => ?_⟩⟩
    · simpa [onNode, Implementation.onNode] using (Node.DiffersIn.refl _ n).set? (by simp)
    · simp at hn
      simp [onNode, Implementation.onNode, Implementation.ofNode, hn,
        Implementation.ofNode_ite, reread]
  | script format text =>
    refine ⟨_, _, rfl, by simp, fun n => ⟨?_, fun cs hn => ?_⟩⟩
    · simpa [onNode] using ((Node.DiffersIn.refl _ n).set? (by simp)).set? (by simp)
    · simp at hn
      simp [onNode, hn, reread]
  | user i renderings =>
    refine ⟨_, _, rfl, by simp, fun n => ⟨?_, fun cs hn => ?_⟩⟩
    · simpa [onNode, Implementation.onNode] using
        ((Node.DiffersIn.refl _ n).set? (by simp)).set? (by simp)
    · simp at hn
      simp [onNode, Implementation.onNode, Implementation.ofNode, hn,
        Implementation.ofNode_ite, reread]

theorem proper_of_read {label : String} {fields : List String} {read : Node → Reading TaskWork}
    (hform : form? label = some (fields, read)) {w : TaskWork} (h : read n = .ok w) : w.Proper := by
  intro i hi
  unfold form? at hform
  split at hform <;> cases hform
  · cases h
    cases hi
  · simp only [bind_eq_ok, pure_eq_ok, Except.ok.injEq] at h
    obtain ⟨j, hj, o, -, rfl⟩ := h
    cases hi
    exact Implementation.proper_of_read hj
  · simp only [bind_eq_ok, pure_eq_ok, Except.ok.injEq] at h
    obtain ⟨j, hj, m, -, o, -, rfl⟩ := h
    cases hi
    exact Implementation.proper_of_read hj
  · simp only [bind_eq_ok, pure_eq_ok, Except.ok.injEq] at h
    obtain ⟨j, hj, b, -, m, -, o, -, rfl⟩ := h
    cases hi
    exact Implementation.proper_of_read hj
  · obtain ⟨j, hj, rfl⟩ := map_eq_ok.mp h
    cases hi
    exact Implementation.proper_of_read hj
  · simp only [bind_eq_ok, pure_eq_ok, Except.ok.injEq] at h
    obtain ⟨f, -, t, -, rfl⟩ := h
    cases hi
  · simp only [bind_eq_ok, pure_eq_ok, Except.ok.injEq] at h
    obtain ⟨j, hj, rs, -, rfl⟩ := h
    cases hi
    exact Implementation.proper_of_read hj
  · cases h
    cases hi

end TaskWork

/-! ## Loops -/

namespace Loop

@[simp]
theorem isLoop_toNode (l : Loop) : isLoop l.toNode = true := by
  cases l <;> simp [toNode, isLoop]

@[simp]
theorem ofNode_toNode (l : Loop) : ofNode l.toNode = .ok l := by
  cases l with
  | standard testBefore maximum condition =>
    cases condition with
    | none => simp [ofNode, toNode, Expression.toNodes, expressionsOfNodes]
    | some e => simp [ofNode, toNode, Expression.toNodes, expressionsOfNodes]
  | multiInstance isSequential cardinality completion =>
    cases cardinality with
    | none =>
      cases completion with
      | none => simp [ofNode, toNode, Expression.toNodes, expressionsOfNodes]
      | some e => simp [ofNode, toNode, Expression.toNodes, expressionsOfNodes]
    | some e =>
      cases completion with
      | none => simp [ofNode, toNode, Expression.toNodes, expressionsOfNodes]
      | some f =>
        simp [ofNode, toNode, Expression.toNodes, expressionsOfNodes, List.lookup_cons]

@[simp]
theorem isDocumentation_toNode (l : Loop) : l.toNode.isDocumentation = false := by
  cases l <;> simp [toNode, Node.isDocumentation]

/-- The expressions of a loop were read from children. -/
theorem exists_of_expressionsOfNodes {parent : Node} {roles : List String} {ns : List Node}
    {found result : List (String × Expression)}
    (h : expressionsOfNodes parent roles ns found = .ok result) {role : String} {e : Expression}
    (he : (role, e) ∈ result) : (role, e) ∈ found ∨ ∃ c ∈ ns, Expression.ofNode c = .ok e := by
  induction ns generalizing found with
  | nil =>
    cases h
    exact .inl he
  | cons c ns ih =>
    rw [expressionsOfNodes] at h
    split at h
    · obtain ⟨f, hf, h⟩ := bind_eq_ok.mp h
      rcases ih h with hmem | ⟨d, hd, hread⟩
      · rcases List.mem_cons.mp hmem with heq | hmem
        · cases heq
          exact .inr ⟨c, List.mem_cons_self, hf⟩
        · exact .inl hmem
      · exact .inr ⟨d, List.mem_cons_of_mem c hd, hread⟩
    · cases h

/-- A loop fits where it was read. -/
theorem fits_toNode {l : Loop} (h : ofNode n = .ok l) {k : Nat} (hn : n.Fits k) :
    l.toNode.Fits k := by
  have hexpression {role : String} {roles : List String} {found : List (String × Expression)}
      {j : Nat} (hj : n.Fits (j + 1))
      (hfound : expressionsOfNodes n roles n.children [] = .ok found) :
      ∀ c ∈ Expression.toNodes role (found.lookup role), c.Fits j := by
    cases he : found.lookup role with
    | none => simp [Expression.toNodes]
    | some e =>
      obtain ⟨before, after, heq, -⟩ := List.lookup_eq_some_iff.mp he
      have hmem : (role, e) ∈ found := by simp [heq]
      rcases exists_of_expressionsOfNodes hfound hmem with hmem | ⟨c, hc, hread⟩
      · cases hmem
      · simpa [Expression.toNodes] using Expression.fits_toNode hread (hj.child hc) role
  cases k with
  | zero =>
    have hcount (label a : String) : Value.readCount label a none = .ok none := rfl
    unfold ofNode at h
    simp only [Node.flag, Node.flag?_eq, Node.count?_eq, hn.attribute?_eq_none, hn.2,
      expressionsOfNodes, Value.readFlag_none, hcount, ok_bind, pure_eq_ok] at h
    split at h
    · obtain ⟨-, -, heq⟩ := bind_eq_ok.mp h
      cases heq
      exact ⟨rfl, rfl⟩
    · obtain ⟨-, -, heq⟩ := bind_eq_ok.mp h
      cases heq
      exact ⟨rfl, rfl⟩
  | succ j =>
    unfold ofNode at h
    split at h
    · simp only [bind_eq_ok, pure_eq_ok, Except.ok.injEq] at h
      obtain ⟨b, -, m, -, found, hfound, -, -, rfl⟩ := h
      simpa [toNode] using hexpression hn hfound
    · simp only [bind_eq_ok, pure_eq_ok, Except.ok.injEq] at h
      obtain ⟨b, -, found, hfound, -, -, rfl⟩ := h
      rw [toNode, Node.fits_pushAll, List.forall_mem_append]
      exact ⟨by simp, hexpression hn hfound, hexpression hn hfound⟩

end Loop

/-! ## Activities -/

namespace Quantity

theorem ofInt_of_count {q : Quantity} {i : Int} (hcount : countOfInt? i = some q.count) (hi : 1 ≤ i)
    (element : Id) (field : String) : ofInt element field i = .ok q := by
  rw [ofInt, if_neg (by omega), hcount]
  exact dif_pos q.one_le

/-- A quantity is read back, and one where none was written. -/
theorem ofInt_getD (q : Quantity) (element : Id) (field : String) :
    ofInt element field ((if q = one then none else some (q.count.toNat : Int)).getD 1) = .ok q := by
  split
  · rename_i h
    subst h
    rfl
  · have h := UInt32.le_iff_toNat_le.mp q.one_le
    exact ofInt_of_count (countOfInt?_toNat q.count) (Int.ofNat_le.mpr h) element field

end Quantity

namespace Activity

variable {act : Activity}

/-- What an activity holds that has no place in documents. -/
def Carries (act : Activity) (f : Feature) : Prop :=
  (f = .extensionValues ∧ act.base.identity.extensionValues ≠ []) ∨
    (f = .dataSpecification ∧ act.data ≠ none) ∨ (f = .resourceRoles ∧ act.resources ≠ [])

/-- The activity holds nothing of that kind. -/
structure Plain (act : Activity) : Prop where
  extensionValues : act.base.identity.extensionValues = []
  data : act.data = none
  resources : act.resources = []

/-- The node that `toNode` makes if nothing is in the way. -/
def node (label : String) (act : Activity) : Node :=
  let n := (act.edges.onNode (act.base.node label)).setFlag "isForCompensation"
    act.isForCompensation false
  let n := quantityOnNode "startQuantity" act.startQuantity n
  let n := quantityOnNode "completionQuantity" act.completionQuantity n
  (n.setRef? "default" act.defaultFlow).setRefs "boundaryEventRefs" act.boundaryEventRefs

theorem toNode_writes (label : String) (act : Activity) :
    Writes (act.toNode label) (fun id f => id = act.base.id ∧ act.Carries f)
      (fun n => n = act.node label ∧ act.Plain) := by
  unfold toNode
  cases hd : act.data with
  | some d =>
    exact .inr ⟨act.base.id, .dataSpecification, rfl, rfl, .inr (.inl ⟨rfl, by simp [hd]⟩)⟩
  | none =>
    cases hr : act.resources with
    | cons r rs =>
      exact .inr ⟨act.base.id, .resourceRoles, rfl, rfl, .inr (.inr ⟨rfl, by simp [hr]⟩)⟩
    | nil =>
      refine Writes.congr ((act.base.toNode_writes label).map fun n hn => ?_) fun id f => ?_
      · exact ⟨by rw [hn.1]; rfl, hn.2, hd, hr⟩
      · simp [Carries, hd, hr]

/-- The fields of an activity are set after its base was written. -/
theorem differsIn_node (label : String) (act : Activity) :
    (act.base.node label).DiffersIn (fields.drop 3) (act.node label) := by
  have hedges : (act.base.node label).DiffersIn (fields.drop 3)
      (act.edges.onNode (act.base.node label)) := by
    simpa [Edges.onNode] using ((Node.DiffersIn.refl _ _).set? (by simp)).set? (by simp)
  unfold node quantityOnNode
  simp only [Node.setFlag_eq, Node.set_eq, Node.ite_set?, Node.setRef?_eq, Node.setRefs_eq]
  exact ((((hedges.set? (by simp)).set? (by simp)).set? (by simp)).set? (by simp)).set? (by simp)

@[simp]
theorem label_node (label : String) (act : Activity) : (act.node label).label = label := by
  rw [(act.differsIn_node label).label, FlowBase.label_node]

@[simp]
theorem children_node (label : String) (act : Activity) : (act.node label).children =
    act.base.identity.documentation.map Documentation.toNode := by
  simp [(act.differsIn_node label).children, FlowBase.node]

@[simp]
theorem content_node (label : String) (act : Activity) : (act.node label).content = [] := by
  rw [(act.differsIn_node label).content, FlowBase.content_node]

theorem attribute?_node (label : String) (act : Activity) (h : a ∉ fields) :
    (act.node label).attribute? a = none := by
  rw [(act.differsIn_node label).attribute? a fun hmem => h (List.mem_of_mem_drop hmem)]
  exact FlowBase.attribute?_node label act.base fun hmem =>
    h (List.mem_append_left _ (List.mem_append_left _ hmem))

theorem closed_node (label : String) (act : Activity) {known : List String}
    (h : ∀ a ∈ fields, a ∈ known) : (act.node label).Closed known := by
  refine (act.differsIn_node label).closed known (fun a ha => h a (List.mem_of_mem_drop ha)) ?_
  exact FlowBase.closed_node label act.base (h _ (by simp)) (h _ (by simp)) (h _ (by simp))

theorem ofNode_congr {fs : List String} {m : Node} (h : n.DiffersIn fs m)
    (hfs : ∀ a ∈ fields, a ∉ fs) : ofNode m = ofNode n := by
  have hchildren (owner : Id) : Loop.ofChildren owner m = Loop.ofChildren owner n := by
    rw [Loop.ofChildren, h.content, Loop.ofChildren]
  have hbase := h.flowBase fun a ha =>
    hfs a (List.mem_append_left _ (List.mem_append_left _ ha))
  have hedges := h.edges fun a ha => hfs a (List.mem_append_left _ (List.mem_append_right _ ha))
  simp only [fields, FlowBase.fields, Edges.fields, List.forall_mem_append,
    List.forall_mem_cons] at hfs
  simp [ofNode, hbase, hedges, hchildren, h.label, h.attribute?, hfs]

theorem allContent_loopNodes (act : Activity) : Node.AllContent act.loopNodes := by
  cases h : act.loop <;> simp [loopNodes, h]

/-- The loop of an activity is found among children that describe no loop. -/
theorem ofChildren_loopNodes {m : Node} {cs : List Node} (hm : m.content = act.loopNodes ++ cs)
    (hloop : ∀ c ∈ cs, Loop.isLoop c = false) (owner : Id) :
    Loop.ofChildren owner m = .ok act.loop := by
  have hfilter : cs.filter Loop.isLoop = [] :=
    List.filter_eq_nil_iff.mpr fun c hc => by simp [hloop c hc]
  rw [Loop.ofChildren, hm, List.filter_append, hfilter, List.append_nil, loopNodes]
  cases act.loop with
  | none => rfl
  | some l => simp

/-- An activity is read back, whatever follows its loop. -/
theorem ofNode_node {act : Activity} (h : act.Plain) (label : String) {cs : List Node}
    (hdoc : Node.AllContent cs) (hloop : ∀ c ∈ cs, Loop.isLoop c = false) :
    ∃ d, ofNode ((act.node label).pushAll (act.loopNodes ++ cs)) = .ok d ∧ d.finish = .ok act := by
  have hcs : Node.AllContent (act.loopNodes ++ cs) := by simp [allContent_loopNodes, hdoc]
  have hbase : FlowBase.ofNode (act.node label) = .ok act.base := by
    rw [(act.differsIn_node label).flowBase (by simp), FlowBase.ofNode_node h.extensionValues]
  have hedges : Edges.ofNode (act.node label) = .ok act.edges := by
    simp [Edges.ofNode, node, Edges.onNode, quantityOnNode, FlowBase.attribute?_node]
  have hcontent : ((act.node label).pushAll (act.loopNodes ++ cs)).content =
      act.loopNodes ++ cs := by
    rw [Node.content_pushAll _ hcs, content_node, List.nil_append]
  refine ⟨⟨{ act with startQuantity := .one, completionQuantity := .one },
    (if act.startQuantity = .one then none else some (act.startQuantity.count.toNat : Int)).getD 1,
    (if act.completionQuantity = .one then none
      else some (act.completionQuantity.count.toNat : Int)).getD 1⟩, ?_, ?_⟩
  · simp only [ofNode, FlowBase.ofNode_pushAll hcs, hbase, Edges.ofNode_pushAll, hedges, ok_bind,
      ofChildren_loopNodes hcontent hloop]
    simp [node, quantityOnNode, Edges.onNode, FlowBase.attribute?_node, bare, h.resources, h.data]
  · simp only [ActivityDraft.finish, withQuantities, Quantity.ofInt_getD, ok_bind]
    rfl

/-- The activity was read from the node, up to what a kind of activity adds. -/
structure ReadAt (act : Activity) (n : Node) : Prop where
  plain : act.Plain
  identifies : n.Identifies act.base.identity
  loop : ∀ l, act.loop = some l → ∃ c ∈ n.children, Loop.ofNode c = .ok l

theorem ReadAt.with_edges (h : act.ReadAt n) (edges : Edges) : { act with edges }.ReadAt n :=
  ⟨⟨h.plain.extensionValues, h.plain.data, h.plain.resources⟩, h.identifies, h.loop⟩

theorem readAt_of_read {d : ActivityDraft} (h : ofNode n = .ok d) (hfinish : d.finish = .ok act) :
    act.ReadAt n := by
  simp only [ofNode, bind_eq_ok, pure_eq_ok, Except.ok.injEq] at h
  obtain ⟨base, hbase, edges, -, c, -, flow, -, refs, -, start, -, completion, -, loop, hloop,
    rfl⟩ := h
  simp only [ActivityDraft.finish, checked_eq_ok, withQuantities, bind_eq_ok, pure_eq_ok,
    Except.ok.injEq] at hfinish
  obtain ⟨start', -, completion', -, rfl⟩ := hfinish
  have hidentifies := FlowBase.identifies hbase
  refine ⟨⟨hidentifies.extensionValues, rfl, rfl⟩, hidentifies, ?_⟩
  intro l hl
  subst hl
  unfold Loop.ofChildren at hloop
  split at hloop
  · cases hloop
  · rename_i c hc
    obtain ⟨l', hread, heq⟩ := map_eq_ok.mp hloop
    cases heq
    have hmem : c ∈ n.content.filter Loop.isLoop := by simp [hc]
    exact ⟨c, Node.mem_children_of_mem_content (List.mem_of_mem_filter hmem), hread⟩
  · cases hloop

/-- Nothing is in the way of writing a plain activity. -/
theorem Plain.toNode_eq (h : act.Plain) (label : String) :
    act.toNode label = .ok (act.node label) := by
  rcases act.toNode_writes label with ⟨m, hm, ⟨rfl, -⟩, -⟩ | ⟨id, f, -, -, hcarries⟩
  · exact hm
  · rcases hcarries with ⟨-, hv⟩ | ⟨-, hd⟩ | ⟨-, hr⟩
    · exact absurd h.extensionValues hv
    · exact absurd h.data hd
    · exact absurd h.resources hr

theorem ReadAt.toNode_eq (h : act.ReadAt n) (label : String) :
    act.toNode label = .ok (act.node label) :=
  h.plain.toNode_eq label

/-- An activity and its loop fit where they were read. -/
theorem ReadAt.fits (h : act.ReadAt n) {k : Nat} (hn : n.Fits k) (label : String) :
    ∃ j, k = j + 1 ∧ (act.node label).Fits (j + 1) ∧ ∀ c ∈ act.loopNodes, c.Fits j := by
  obtain ⟨j, rfl, hj⟩ := h.identifies.fits hn label
  refine ⟨j, rfl, (act.differsIn_node label).fits (by simpa [FlowBase.node] using hj), ?_⟩
  intro c hc
  obtain ⟨l, hl, rfl⟩ : ∃ l, act.loop = some l ∧ l.toNode = c := by simpa [loopNodes] using hc
  obtain ⟨m, hm, hread⟩ := h.loop l hl
  exact Loop.fits_toNode hread (hn.child hm)

end Activity

end BpmnModel
