import BpmnModel.Proofs.Documents

/-!
# Nodes, counted by label

What a reader makes of a document is compared with the document by counting nodes.  Two kinds of
node leave no trace in what is written again: documentation below a node that carries no identifier
is passed over unread, and of several expressions in one role the last counts.

* `Node.fieldsOf` — the attributes that are read from nodes with a label.
* `Node.nodes`, `Node.heard`, `Node.kept` — all nodes of a tree, those that are looked at, and those
  that come back.
* `Node.Records` — a node has as many nodes of each label as are kept of the one that was read, of
  which every attribute was read.
* `Node.Records.of_content`, `Recorded.leaf`, `Recorded.branch` — elements with an identity.
-/

namespace BpmnModel

namespace Node

/-! ## What is looked at -/

/-- The attributes that are read from nodes with a label. -/
def fieldsOf (label : String) : List String :=
  match label with
  | "documentation" => ["text", "textFormat"]
  | "definitions" => ["id", "targetNamespace", "name", "expressionLanguage", "typeLanguage",
    "exporter", "exporterVersion"]
  | "import" => ["importType", "namespace", "location"]
  | "relationship" => ["id", "type", "direction", "sources", "targets"]
  | "endPoint" => ["id"]
  | "message" => ["id", "name", "itemRef"]
  | "itemDefinition" => ["id", "itemKind", "isCollection", "structureRef"]
  | "error" => ["id", "name", "errorCode", "structureRef"]
  | "escalation" => ["id", "name", "escalationCode", "structureRef"]
  | "resource" | "category" | "laneSet" => ["id", "name"]
  | "resourceParameter" => ["id", "name", "type", "isRequired"]
  | "categoryValue" => ["id", "value"]
  | "interface" => ["id", "name", "implementationRef"]
  | "operation" =>
    ["id", "name", "inMessageRef", "outMessageRef", "errorRefs", "implementationRef"]
  | "correlationProperty" => ["id", "name", "type"]
  | "correlationPropertyRetrievalExpression" => ["messageRef"]
  | "messagePath" | "conditionExpression" | "loopCondition" | "loopCardinality"
  | "completionCondition" => ["body", "formal", "language", "evaluatesToTypeRef"]
  | "process" => ["id", "name", "processType", "isExecutable", "isClosed", "supports",
    "definitionalCollaborationRef", "supportedInterfaceRefs"]
  | "lane" => ["id", "name", "flowNodeRefs"]
  | "association" => ["id", "sourceRef", "targetRef", "associationDirection"]
  | "group" => ["id", "categoryValueRef"]
  | "textAnnotation" => ["id", "text", "textFormat"]
  | "sequenceFlow" => FlowBase.fields ++ ["sourceRef", "targetRef", "isImmediate"]
  | "callActivity" => Activity.fields ++ ["calledElement"]
  | "subProcess" => Activity.fields ++ ["triggeredByEvent"]
  | "standardLoopCharacteristics" => ["testBefore", "loopMaximum"]
  | "multiInstanceLoopCharacteristics" => ["isSequential"]
  | "messageEventDefinition" => ["messageRef", "operationRef"]
  | "errorEventDefinition" => ["errorRef"]
  | "escalationEventDefinition" => ["escalationRef"]
  | "terminateEventDefinition" => []
  | "collaboration" | "globalConversation" => ["id", "name", "isClosed"]
  | "participant" => ["id", "name", "processRef", "interfaceRefs", "endPointRefs"]
  | "participantMultiplicity" => ["minimum", "maximum"]
  | "messageFlow" => ["id", "name", "sourceRef", "targetRef", "messageRef"]
  | "conversationLink" => ["id", "name", "sourceRef", "targetRef"]
  | "conversation" | "subConversation" => ConversationNode.fields
  | "callConversation" => ConversationNode.fields ++ ["calledCollaborationRef"]
  | _ =>
    match EventPosition.form? label, GatewayType.ofLabel? label, TaskWork.form? label with
    | some (fields, _), _, _ => FlowBase.fields ++ Edges.fields ++ fields
    | none, some _, _ => FlowBase.fields ++ Edges.fields ++ ["gatewayDirection", "default"]
    | none, none, some (fields, _) => Activity.fields ++ fields
    | none, none, none => []

/-- Nodes with the label carry an identifier, and with it their documentation. -/
def identified (label : String) : Bool :=
  (fieldsOf label).contains "id"

/-- The label is the role of an expression. -/
def isExpression (label : String) : Bool :=
  ["conditionExpression", "loopCondition", "loopCardinality", "completionCondition",
    "messagePath"].contains label

mutual

/-- The nodes of a tree from the root down. A child is left out, with all below it, if `drop` says
so of the label of its parent, the child and the children after it. -/
def nodesBut (drop : String → Node → List Node → Bool) : Node → List Node
  | ⟨label, attributes, children⟩ =>
    ⟨label, attributes, children⟩ :: childrenBut drop label children

/-- The nodes below a node with the label `parent`. -/
def childrenBut (drop : String → Node → List Node → Bool) (parent : String) :
    List Node → List Node
  | [] => []
  | c :: cs =>
    if drop parent c cs then childrenBut drop parent cs
    else nodesBut drop c ++ childrenBut drop parent cs

end

/-- The child documents a node that carries no identifier. It is not even looked at. -/
def unheard (parent : String) (c : Node) : Bool :=
  c.isDocumentation && !identified parent

/-- The child leaves no trace: it is not looked at, or a later expression takes its role. -/
def overlooked (parent : String) (c : Node) (later : List Node) : Bool :=
  unheard parent c || (isExpression c.label && later.any (·.label = c.label))

/-- All nodes of the tree. -/
def nodes : Node → List Node := nodesBut fun _ _ _ => false

/-- The nodes of the tree that are looked at. -/
def heard : Node → List Node := nodesBut fun parent c _ => unheard parent c

/-- The nodes of the tree that come back when what was read is written. -/
def kept : Node → List Node := nodesBut overlooked

section NodesBut

variable {drop drop' : String → Node → List Node → Bool} {n : Node} {parent : String}
  {cs ds : List Node}

theorem nodesBut_eq (n : Node) : nodesBut drop n = n :: childrenBut drop n.label n.children := by
  obtain ⟨label, attributes, children⟩ := n
  rw [nodesBut]

theorem childrenBut_eq_flatMap
    (h : ∀ before c later, cs = before ++ c :: later → drop parent c later = false) :
    childrenBut drop parent cs = cs.flatMap (nodesBut drop) := by
  induction cs with
  | nil => rw [childrenBut, List.flatMap_nil]
  | cons c cs ih =>
    rw [childrenBut, h [] c cs rfl, if_neg Bool.false_ne_true, List.flatMap_cons, ih]
    rintro before d later rfl
    exact h (c :: before) d later rfl

theorem childrenBut_eq_nil (h : ∀ c later, c ∈ cs → drop parent c later = true) :
    childrenBut drop parent cs = [] := by
  induction cs with
  | nil => rw [childrenBut]
  | cons c cs ih =>
    rw [childrenBut, if_pos (h c cs List.mem_cons_self)]
    exact ih fun d later hd => h d later (List.mem_cons_of_mem c hd)

theorem nodes_eq (n : Node) : n.nodes = n :: n.children.flatMap nodes := by
  rw [nodes, nodesBut_eq, childrenBut_eq_flatMap fun _ _ _ _ => rfl]

section Sublist

variable (hdrop : ∀ parent c later, drop' parent c later = true → drop parent c later = true)

include hdrop

theorem childrenBut_sublist (hcs : ∀ c ∈ cs, (nodesBut drop c).Sublist (nodesBut drop' c)) :
    (childrenBut drop parent cs).Sublist (childrenBut drop' parent cs) := by
  induction cs with
  | nil => simp [childrenBut]
  | cons c cs ih =>
    have hrest := ih fun d hd => hcs d (List.mem_cons_of_mem c hd)
    rw [childrenBut, childrenBut]
    split
    · split
      · exact hrest
      · exact hrest.trans (List.sublist_append_right _ _)
    · rename_i hkeep
      rw [if_neg fun hd => hkeep (hdrop _ _ _ hd)]
      exact (hcs c List.mem_cons_self).append hrest

/-- Leaving out more leaves fewer nodes. -/
theorem nodesBut_sublist (n : Node) : (nodesBut drop n).Sublist (nodesBut drop' n) := by
  induction n using children_induction with
  | step n ih =>
    rw [nodesBut_eq, nodesBut_eq]
    exact (childrenBut_sublist hdrop ih).cons_cons n

end Sublist

end NodesBut

theorem kept_sublist_heard (n : Node) : n.kept.Sublist n.heard :=
  nodesBut_sublist (fun parent c later h => by simp [overlooked, h]) n

theorem heard_sublist_nodes (n : Node) : n.heard.Sublist n.nodes :=
  nodesBut_sublist (fun _ _ _ h => by cases h) n

theorem kept_sublist_nodes (n : Node) : n.kept.Sublist n.nodes :=
  n.kept_sublist_heard.trans n.heard_sublist_nodes

/-- No node of the tree has a child that leaves no trace. -/
def Tidy (n : Node) : Prop :=
  ∀ m ∈ n.nodes, ∀ before c later, m.children = before ++ c :: later →
    overlooked m.label c later = false

section Tidy

variable {n : Node} {parent : String} {cs : List Node}

theorem nodes_ne_nil (n : Node) : n.nodes ≠ [] := by
  rw [nodes_eq]
  exact List.cons_ne_nil _ _

theorem childrenBut_sublist_flatMap (parent : String) (cs : List Node) :
    (childrenBut overlooked parent cs).Sublist (cs.flatMap nodes) := by
  have hall : childrenBut (fun _ _ _ => false) parent cs = cs.flatMap nodes :=
    childrenBut_eq_flatMap fun _ _ _ _ => rfl
  rw [← hall]
  exact childrenBut_sublist (fun _ _ _ h => by cases h) fun c _ => c.kept_sublist_nodes

/-- Everything below a node is kept if no child is overlooked and everything in each is kept. -/
theorem childrenBut_eq_iff : childrenBut overlooked parent cs = cs.flatMap nodes ↔
    (∀ before c later, cs = before ++ c :: later → overlooked parent c later = false) ∧
      ∀ c ∈ cs, c.kept = c.nodes := by
  constructor
  · intro h
    induction cs with
    | nil => simp
    | cons c cs ih =>
      have hrest := (childrenBut_sublist_flatMap parent cs).length_le
      have hc : (nodesBut overlooked c).length ≤ c.nodes.length := c.kept_sublist_nodes.length_le
      rw [childrenBut, List.flatMap_cons] at h
      split at h
      · -- the nodes of the child are missing
        have hlength := congrArg List.length h
        have hpos := List.length_pos_iff.mpr c.nodes_ne_nil
        rw [List.length_append] at hlength
        omega
      · rename_i hkeep
        have hlength := congrArg List.length h
        rw [List.length_append, List.length_append] at hlength
        obtain ⟨hkept, hbelow⟩ := List.append_inj h (by omega)
        obtain ⟨hdrop, hall⟩ := ih hbelow
        refine ⟨fun before d later heq => ?_, List.forall_mem_cons.mpr ⟨hkept, hall⟩⟩
        cases before with
        | nil =>
          cases heq
          exact Bool.eq_false_iff.mpr hkeep
        | cons b before =>
          cases heq
          exact hdrop before d later rfl
  · rintro ⟨hdrop, hall⟩
    rw [childrenBut_eq_flatMap hdrop]
    exact List.flatMap_congr hall

/-- Everything is kept of a tidy tree, and of no other. -/
theorem kept_eq_nodes_iff : n.kept = n.nodes ↔ n.Tidy := by
  induction n using children_induction with
  | step n ih =>
    have hkept : n.kept = n :: childrenBut overlooked n.label n.children := nodesBut_eq n
    rw [hkept, nodes_eq, List.cons.injEq, eq_self, true_and, childrenBut_eq_iff, Tidy, nodes_eq,
      List.forall_mem_cons]
    refine and_congr_right fun _ => ?_
    simp only [List.mem_flatMap, forall_exists_index, and_imp]
    constructor
    · exact fun h m c hc hm => (ih c hc).mp (h c hc) m hm
    · exact fun h c hc => (ih c hc).mpr fun m hm => h m c hc hm

end Tidy

/-! ## Numbers of nodes -/

/-- The number of nodes with a label. -/
def tally (label : String) (ns : List Node) : Nat := (ns.map Node.label).count label

section Tally

variable {label : String} {ms ns : List Node}

@[simp]
theorem tally_nil : tally label [] = 0 := rfl

@[simp]
theorem tally_append : tally label (ms ++ ns) = tally label ms + tally label ns := by
  simp [tally]

theorem tally_cons (n : Node) :
    tally label (n :: ns) = (if n.label = label then 1 else 0) + tally label ns := by
  simp [tally, List.count_cons, Nat.add_comm]

/-- Part of a list has as many nodes of each label as the list only if it is the list. -/
theorem tally_eq_iff (h : ms.Sublist ns) :
    (∀ label, tally label ms = tally label ns) ↔ ms = ns := by
  refine ⟨fun heq => ?_, fun heq => heq ▸ fun _ => rfl⟩
  have hperm : (ms.map Node.label).Perm (ns.map Node.label) := List.perm_iff_count.mpr heq
  exact h.eq_of_length (by simpa using hperm.length_eq)

end Tally

/-! ## What is read and what is written -/

/-- Every attribute of what is looked at is read. -/
def Known (n : Node) : Prop := ∀ x ∈ n.heard, x.Closed (fieldsOf x.label)

/-- What is written below a node with the label `parent` has as many nodes of each label as are kept
of the children that were read, of which every attribute was read. -/
structure RecordsBelow (ms : List Node) (parent : String) (cs : List Node) : Prop where
  counts : ∀ label, tally label (ms.flatMap nodes) = tally label (childrenBut overlooked parent cs)
  known : ∀ c ∈ cs, unheard parent c = false → c.Known

/-- The node has as many nodes of each label as are kept of the one that was read, of which every
attribute was read. It plays the role of no expression, so that no later one takes its place. -/
structure Records (m n : Node) : Prop where
  counts : ∀ label, tally label m.nodes = tally label n.kept
  known : n.Known
  plain : isExpression n.label = false

/-- The same of lists of nodes. -/
structure RecordsAll (ms ns : List Node) : Prop where
  counts : ∀ label, tally label (ms.flatMap nodes) = tally label (ns.flatMap kept)
  known : ∀ n ∈ ns, n.Known
  plain : ∀ n ∈ ns, isExpression n.label = false

variable {m n : Node} {ms ms' ns ns' cs : List Node} {parent : String} {identity : Identity}

theorem known_iff : n.Known ↔
    n.Closed (fieldsOf n.label) ∧ ∀ c ∈ n.children, unheard n.label c = false → c.Known := by
  have hbelow (parent : String) : ∀ cs : List Node,
      (∀ x ∈ childrenBut (fun parent c _ => unheard parent c) parent cs,
        x.Closed (fieldsOf x.label)) ↔ ∀ c ∈ cs, unheard parent c = false → c.Known := by
    intro cs
    induction cs with
    | nil => simp [childrenBut]
    | cons c cs ih =>
      rw [childrenBut, List.forall_mem_cons, ← ih]
      split
      · rename_i h
        simp [h]
      · rename_i h
        rw [List.forall_mem_append]
        simp [h, Known, heard]
  rw [Known, heard, nodesBut_eq, List.forall_mem_cons, hbelow]

namespace RecordsAll

theorem nil : RecordsAll [] [] := ⟨fun _ => rfl, nofun, nofun⟩

theorem append (h : RecordsAll ms ns) (h' : RecordsAll ms' ns') :
    RecordsAll (ms ++ ms') (ns ++ ns') where
  counts label := by simp [h.counts, h'.counts]
  known := List.forall_mem_append.mpr ⟨h.known, h'.known⟩
  plain := List.forall_mem_append.mpr ⟨h.plain, h'.plain⟩

/-- The order of lists does not matter. -/
theorem reorder (h : RecordsAll ms ns) (hms : ms.Perm ms') (hns : ns.Perm ns') :
    RecordsAll ms' ns' where
  counts label := by
    have hwritten := ((hms.flatMap_right nodes).map Node.label).count_eq label
    have hread := ((hns.flatMap_right kept).map Node.label).count_eq label
    exact hwritten.symm.trans ((h.counts label).trans hread)
  known n hn := h.known n (hns.mem_iff.mpr hn)
  plain n hn := h.plain n (hns.mem_iff.mpr hn)

theorem of_forall₂ (h : List.Forall₂ Records ms ns) : RecordsAll ms ns := by
  induction h with
  | nil => exact nil
  | @cons m n ms ns hm _ ih =>
    have hone : RecordsAll [m] [n] :=
      ⟨fun label => by simpa using hm.counts label, by simpa using hm.known,
        by simpa using hm.plain⟩
    exact hone.append ih

/-- None of the children that were read is overlooked. -/
theorem below (h : RecordsAll ms cs) (hheard : ∀ c ∈ cs, unheard parent c = false) :
    RecordsBelow ms parent cs where
  counts label := by
    rw [h.counts, childrenBut_eq_flatMap]
    · rfl
    · rintro before c later rfl
      simp [overlooked, hheard c (by simp), h.plain c (by simp)]
  known c hc _ := h.known c hc

end RecordsAll

theorem unheard_of_content {c : Node} (hc : c ∈ n.content) : unheard parent c = false := by
  have hdoc : c.isDocumentation = false := by simpa using (List.mem_filter.mp hc).2
  simp [unheard, hdoc]

/-- Content that was read is not overlooked, whatever stands above it. -/
theorem RecordsAll.below_content (h : RecordsAll ms n.content) : RecordsBelow ms parent n.content :=
  h.below fun _ => unheard_of_content

theorem recordsBelow_of_content (h : n.content = []) : RecordsBelow [] parent n.content := by
  rw [h]
  exact RecordsAll.nil.below nofun

theorem not_expression_of_documentation {c : Node} (h : c.isDocumentation = true) :
    isExpression c.label = false := by
  have hlabel : c.label = "documentation" := by simpa [isDocumentation] using h
  rw [hlabel]
  decide

theorem Records.of_children (hlabel : m.label = n.label) (hclosed : n.Closed (fieldsOf n.label))
    (hplain : isExpression n.label = false)
    (h : RecordsBelow m.children n.label n.children) : m.Records n where
  counts label := by
    rw [nodes_eq, kept, nodesBut_eq, tally_cons, tally_cons, hlabel, h.counts]
  known := known_iff.mpr ⟨hclosed, h.known⟩
  plain := hplain

section Anonymous

variable (hid : identified n.label = false) (hcontent : n.content = [])

include hid hcontent

theorem unheard_of_anonymous : ∀ c ∈ n.children, unheard n.label c = true := by
  intro c hc
  have hdoc : c.isDocumentation = true := by
    by_contra hdoc
    have hmem : c ∈ n.content := List.mem_filter.mpr ⟨hc, by simpa using hdoc⟩
    rw [hcontent] at hmem
    cases hmem
  simp [unheard, hdoc, hid]

/-- Of a node without an identifier nothing below it is kept if there is only documentation. -/
theorem kept_of_anonymous : n.kept = [n] := by
  have hunheard := unheard_of_anonymous hid hcontent
  rw [kept, nodesBut_eq, childrenBut_eq_nil fun c later hc => by simp [overlooked, hunheard c hc]]

theorem known_of_anonymous (hclosed : n.Closed (fieldsOf n.label)) : n.Known := by
  refine known_iff.mpr ⟨hclosed, fun c hc hheard => ?_⟩
  rw [unheard_of_anonymous hid hcontent c hc] at hheard
  cases hheard

theorem Records.of_anonymous (hclosed : n.Closed (fieldsOf n.label))
    (hplain : isExpression n.label = false) (hlabel : m.label = n.label) (hm : m.children = []) :
    m.Records n where
  counts label := by
    rw [nodes_eq, hm, kept_of_anonymous hid hcontent, List.flatMap_nil, tally_cons, tally_cons,
      hlabel]
  known := known_of_anonymous hid hcontent hclosed
  plain := hplain

end Anonymous

/-! ## Lists, read and written one by one -/

theorem forall₂_of_mapM {α : Type} {read : Node → Reading α} {xs : List α}
    (h : ns.mapM read = .ok xs) : List.Forall₂ (fun x c => c ∈ ns ∧ read c = .ok x) xs ns := by
  induction ns generalizing xs with
  | nil =>
    cases h
    exact .nil
  | cons c cs ih =>
    simp only [List.mapM_cons, bind_eq_ok, pure_eq_ok, Except.ok.injEq] at h
    obtain ⟨x, hx, xs, hxs, rfl⟩ := h
    refine .cons ⟨List.mem_cons_self, hx⟩ ((ih hxs).imp fun y d hd => ?_)
    exact ⟨List.mem_cons_of_mem c hd.1, hd.2⟩

theorem forall₂_concat {α : Type} {good : α → Node → Prop} {xs : List α} {x : α}
    (h : List.Forall₂ good xs ns) (hx : good x n) : List.Forall₂ good (xs ++ [x]) (ns ++ [n]) :=
  List.rel_append h (.cons hx .nil)

/-- What each step of a fold keeps of the nodes so far holds of all nodes at the end. -/
theorem foldlM_concat {σ : Type} {good : σ → List Node → Prop} {step : σ → Node → Reading σ}
    (hstep : ∀ s t n ns, good s ns → step s n = .ok t → good t (ns ++ [n])) {s t : σ}
    (h : good s ns) (hfold : ms.foldlM step s = .ok t) : good t (ns ++ ms) := by
  induction ms generalizing s ns with
  | nil =>
    cases hfold
    rwa [List.append_nil]
  | cons m ms ih =>
    obtain ⟨u, hu, hrest⟩ := bind_eq_ok.mp hfold
    rw [List.append_cons]
    exact ih (hstep s u m ns h hu) hrest

/-! ## Documentation -/

theorem identified_documentation : identified "documentation" = false := by decide

/-- Documentation that was read is written again. -/
theorem records_documentation {c : Node} {d : Documentation} (hdoc : c.isDocumentation = true)
    (h : Documentation.ofNode c = .ok d) : d.toNode.Records c := by
  have hlabel : c.label = "documentation" := by simpa [isDocumentation] using hdoc
  simp only [Documentation.ofNode, bind_eq_ok] at h
  obtain ⟨text, -, format, -, ⟨⟩, hfinish, h⟩ := h
  split at h
  · rename_i hchildren
    refine .of_anonymous ?_ ?_ ?_ (not_expression_of_documentation hdoc) ?_ ?_
    · rw [hlabel, identified_documentation]
    · rw [content, hchildren, List.filter_nil]
    · rw [hlabel]
      exact c.finish_eq_ok.mp hfinish
    · simp [Documentation.toNode, hlabel]
    · simp [Documentation.toNode]
  · cases h

theorem Identifies.records (h : n.Identifies identity) :
    List.Forall₂ Records (identity.documentation.map Documentation.toNode)
      (n.children.filter isDocumentation) := by
  rw [List.forall₂_map_left_iff]
  refine (forall₂_of_mapM h.documentation).imp fun d c hc => ?_
  exact records_documentation (List.mem_filter.mp hc.1).2 hc.2

/-- Below a node with an identifier, documentation counts beside the rest. -/
theorem tally_childrenBut (hid : identified parent = true) (label : String) (cs : List Node) :
    tally label (childrenBut overlooked parent cs) =
      tally label ((cs.filter isDocumentation).flatMap kept) +
        tally label (childrenBut overlooked parent (cs.filter (!·.isDocumentation))) := by
  induction cs with
  | nil => simp [childrenBut]
  | cons c cs ih =>
    cases hdoc : c.isDocumentation with
    | true =>
      have hkeep : overlooked parent c cs = false := by
        simp [overlooked, unheard, hid, not_expression_of_documentation hdoc]
      simp only [List.filter_cons_of_pos, hdoc, Bool.not_true, Bool.false_eq_true,
        not_false_eq_true, List.filter_cons_of_neg, childrenBut, hkeep, if_false, tally_append,
        List.flatMap_cons, ih]
      rw [Nat.add_assoc]
      rfl
    | false =>
      -- an expression that follows stays among the children that follow
      have hlater : overlooked parent c (cs.filter (!·.isDocumentation)) =
          overlooked parent c cs := by
        have hany : (cs.filter (!·.isDocumentation)).any (·.label = c.label) =
            cs.any (·.label = c.label) := by
          rw [List.any_filter]
          refine List.any_congr rfl fun d => ?_
          by_cases hd : d.label = c.label
          · simp [isDocumentation, hd, show c.label ≠ "documentation" by
              simpa [isDocumentation] using hdoc]
          · simp [hd]
        rw [overlooked, hany, overlooked]
      simp only [List.filter_cons_of_pos, hdoc, Bool.not_false, Bool.false_eq_true,
        not_false_eq_true, List.filter_cons_of_neg, childrenBut, hlater]
      split
      · exact ih
      · rw [tally_append, tally_append, ih]
        omega

/-- Documentation is written before the content of a node. -/
theorem RecordsBelow.of_content (hi : n.Identifies identity) (hid : identified n.label = true)
    (h : RecordsBelow ms n.label n.content) :
    RecordsBelow (identity.documentation.map Documentation.toNode ++ ms) n.label n.children where
  counts label := by
    have hdocs := (RecordsAll.of_forall₂ hi.records).counts label
    rw [tally_childrenBut hid, ← hdocs, List.flatMap_append, tally_append, h.counts]
    rfl
  known c hc hheard := by
    cases hdoc : c.isDocumentation with
    | true =>
      exact (RecordsAll.of_forall₂ hi.records).known c (List.mem_filter.mpr ⟨hc, hdoc⟩)
    | false => exact h.known c (List.mem_filter.mpr ⟨hc, by simp [hdoc]⟩) hheard

/-- An element with an identity whose content was read. -/
theorem Records.of_content (hi : n.Identifies identity) (hid : identified n.label = true)
    (hclosed : n.Closed (fieldsOf n.label)) (hplain : isExpression n.label = false)
    (h : RecordsBelow ms n.label n.content) (hlabel : m.label = n.label)
    (hchildren : m.children = identity.documentation.map Documentation.toNode ++ ms) :
    m.Records n := by
  refine .of_children hlabel hclosed hplain ?_
  rw [hchildren]
  exact .of_content hi hid h

end Node

/-! ## Ways of writing -/

/-- What was read from the node is written, and nothing is missing that is kept of it. -/
def Recorded (result : Except DocumentError Node) (n : Node) : Prop :=
  ∃ m, result = .ok m ∧ m.Records n

namespace Recorded

variable {n : Node} {identity : Identity}

/-- What was written one by one. -/
theorem mapM {α : Type} {write : α → Except DocumentError Node} {xs : List α} {cs : List Node}
    (h : List.Forall₂ (fun x c => Recorded (write x) c) xs cs) :
    ∃ ms, xs.mapM write = .ok ms ∧ List.Forall₂ Node.Records ms cs := by
  induction h with
  | nil => exact ⟨[], rfl, .nil⟩
  | cons hx _ ih =>
    obtain ⟨m, hm, hrecords⟩ := hx
    obtain ⟨ms, hms, hall⟩ := ih
    exact ⟨m :: ms, by simp [List.mapM_cons, hm, hms], .cons hrecords hall⟩

/-- The fields that the reader of a label lets pass are those of the label. -/
theorem closed_of_finish {label : String} {known : List String} (hlabel : n.label = label)
    (hfinish : n.finish known = .ok ()) (hknown : Node.fieldsOf label = known) :
    n.Closed (Node.fieldsOf n.label) := by
  rw [hlabel, hknown]
  exact n.finish_eq_ok.mp hfinish

/-- The node carries no identifier, and nothing but documentation below. -/
theorem records_of_anonymous {m : Node} {label : String} {known : List String}
    (hlabel : n.label = label) (hknown : Node.fieldsOf label = known)
    (hlabels : Node.identified label = false ∧ Node.isExpression label = false)
    (hfinish : n.finish known = .ok ()) (hcontent : n.noContent = .ok ())
    (hm : m.label = label ∧ m.children = []) : m.Records n := by
  subst hlabel
  exact .of_anonymous hlabels.1 (n.noContent_eq_ok.mp hcontent)
    (closed_of_finish rfl hfinish hknown) hlabels.2 hm.1 hm.2

section Identified

variable {label : String} {known : List String} (hlabel : n.label = label)
  (hknown : Node.fieldsOf label = known)
  (hlabels : Node.identified label = true ∧ Node.isExpression label = false)

include hlabel hknown hlabels

/-- The nodes below the node are written after the identity. -/
theorem records_of_bears {m : Node} {ms : List Node} (h : n.Bears identity known)
    (hbelow : Node.RecordsBelow ms n.label n.content)
    (hm : m.label = (Node.ofIdentity label identity).label ∧
      m.children = (Node.ofIdentity label identity).children ++ ms) : m.Records n := by
  subst hlabel hknown
  refine .of_content h.identifies hlabels.1 h.closed hlabels.2 hbelow ?_ ?_
  · rw [hm.1, Node.label_ofIdentity]
  · rw [hm.2, Node.children_ofIdentity]

/-- Below the node stands nothing but documentation. -/
theorem leaf {next : Node → Node} (h : n.IsLeaf identity known)
    (hnext : ∀ m, (next m).label = m.label ∧ (next m).children = m.children) :
    Recorded (do let m ← identity.toNode label; return next m) n := by
  refine ⟨next (Node.ofIdentity label identity), ?_, ?_⟩
  · rw [Identity.toNode, h.identifies.extensionValues]
    rfl
  · obtain ⟨hl, hc⟩ := hnext (Node.ofIdentity label identity)
    refine records_of_bears hlabel hknown hlabels h.toBears
      (Node.recordsBelow_of_content h.content) ⟨hl, ?_⟩
    rw [hc, List.append_nil]

/-- Below the node stand documentation and a list of things. -/
theorem branch {α : Type} {read : Node → Reading α} {write : α → Except DocumentError Node}
    {xs : List α} {child : String} {next : Node → List Node → Node} (h : n.Bears identity known)
    (hxs : n.only child read = .ok xs)
    (hwrite : ∀ c x, c.label = child → read c = .ok x → Recorded (write x) c)
    (hnext : ∀ m ms, (next m ms).label = m.label ∧ (next m ms).children = m.children ++ ms) :
    Recorded (do let m ← identity.toNode label; let ms ← xs.mapM write; return next m ms) n := by
  have hread : List.Forall₂ (fun x c => Recorded (write x) c) xs n.content := by
    refine (Node.forall₂_of_mapM hxs).imp fun x c hc => ?_
    obtain ⟨-, hc⟩ := hc
    split at hc
    · rename_i hchild
      exact hwrite c x hchild hc
    · cases hc
  obtain ⟨ms, hms, hall⟩ := mapM hread
  refine ⟨next (Node.ofIdentity label identity) ms, ?_, ?_⟩
  · rw [Identity.toNode, h.identifies.extensionValues, hms]
    rfl
  · exact records_of_bears hlabel hknown hlabels h (Node.RecordsAll.of_forall₂ hall).below_content
      (hnext (Node.ofIdentity label identity) ms)

end Identified

end Recorded

end BpmnModel
