import BpmnModel.Proofs.Editing
import BpmnModel.Proofs.Flows
import BpmnModel.Proofs.Conversations
import BpmnModel.Proofs.ReorderedElements

/-!
# Containers that are read in any order

The children of processes, sub-processes and collaborations go to several lists. Which list comes
first among the children does not matter.

* `FlowElement.contentsOfNodes_eq_ok_iff`, `Collaboration.foldlM_addChild_eq_ok_iff` — children are
  read one by one, and each goes to its list.
* `FlowElement.ofNode_reordered` — flow elements, at any depth of sub-processes.
* `ConversationNode.ofNode_reordered` — conversation nodes, at any depth of sub-conversations.
* `Process.ofNode_reordered`, `Collaboration.ofNode_reordered` — the containers themselves.
-/

namespace BpmnModel

variable {n n' : Node}

/-! ## Contents of processes and sub-processes -/

namespace Contents

/-- What one child of a process or sub-process describes. -/
inductive Item where
  | element (e : FlowElement)
  | laneSet (s : LaneSet)
  | artifact (a : Artifact)

/-- The family of the children that describe the item. -/
def Item.family : Item → Family
  | element _ => .flowElements
  | laneSet _ => .labelled "laneSet"
  | artifact _ => .artifacts

/-- Puts an item before the others of its list. -/
def cons (c : Contents) (item : Item) : Contents :=
  match item with
  | .element e => { c with elements := e :: c.elements }
  | .laneSet s => { c with laneSets := s :: c.laneSets }
  | .artifact a => { c with artifacts := a :: c.artifacts }

theorem cons_comm (c : Contents) (i j : Item) (h : i.family ≠ j.family) :
    (c.cons j).cons i = (c.cons i).cons j := by
  cases i <;> cases j <;> first | rfl | contradiction

end Contents

namespace FlowElement

/-- Reads a child of a process or sub-process with the label `parent`. -/
def itemOfNode (parent : String) (n : Node) : Reading Contents.Item :=
  match Artifact.reader? n.label with
  | some read => .artifact <$> read n
  | none =>
    if n.label = "laneSet" then .laneSet <$> LaneSet.ofNode n
    else .element <$> ofNode parent n

theorem contentsOfNodes_cons {parent : String} {skip : Node → Bool} {m : Node} {ns : List Node}
    (h : (m.isDocumentation || skip m) = false) : contentsOfNodes parent skip (m :: ns) = (do
      let item ← itemOfNode parent m
      let c ← contentsOfNodes parent skip ns
      return c.cons item) := by
  rw [contentsOfNodes, h, if_neg Bool.false_ne_true, itemOfNode]
  cases Artifact.reader? m.label with
  | some read =>
    simp only
    cases read m <;> rfl
  | none =>
    by_cases hlane : m.label = "laneSet"
    · simp only [hlane, if_true]
      cases LaneSet.ofNode m <;> rfl
    · simp only [hlane, if_false]
      cases ofNode parent m <;> rfl

/-- The children that count are read one by one, and each goes to its list. -/
theorem contentsOfNodes_eq_ok_iff {parent : String} {skip : Node → Bool} {ns : List Node}
    {c : Contents} : contentsOfNodes parent skip ns = .ok c ↔
      ∃ items, (ns.filter fun m => !(m.isDocumentation || skip m)).mapM (itemOfNode parent) =
        .ok items ∧ items.foldr (fun i c => c.cons i) .empty = c := by
  induction ns generalizing c with
  | nil => simp [contentsOfNodes]
  | cons m ns ih =>
    cases hskip : m.isDocumentation || skip m with
    | true =>
      rw [contentsOfNodes, hskip, if_pos rfl, List.filter_cons_of_neg (by simp [hskip]), ih]
    | false =>
      rw [contentsOfNodes_cons hskip, List.filter_cons_of_pos (by simp [hskip]), List.mapM_cons]
      cases itemOfNode parent m with
      | error e => simp
      | ok item => simp [bind_eq_ok, ih]

theorem isLabel_of_read {parent : String} {e : FlowElement} (h : ofNode parent n = .ok e) :
    isLabel n.label = true := by
  rw [ofNode_eq] at h
  unfold isLabel Activity.isLabel
  repeat
    split at h
    · simp [*]
  cases h

theorem itemFamily_of_read {parent : String} (hparent : parent ∈ ["process", "subProcess"])
    {item : Contents.Item} (h : itemOfNode parent n = .ok item) :
    item.family = Family.of parent n.label := by
  unfold itemOfNode at h
  split at h
  · rename_i read hread
    obtain ⟨a, -, rfl⟩ := map_eq_ok.mp h
    exact (Family.of_artifact
      (List.mem_append_left ["collaboration", "globalConversation"] hparent) hread).symm
  split at h
  · rename_i hlane
    obtain ⟨s, -, rfl⟩ := map_eq_ok.mp h
    have hall : ∀ p ∈ ["process", "subProcess"], Family.of p "laneSet" = .labelled "laneSet" := by
      decide
    rw [hlane, hall parent hparent, Contents.Item.family]
  · obtain ⟨e, he, rfl⟩ := map_eq_ok.mp h
    rw [Family.of_flowElement hparent (isLabel_of_read he), Contents.Item.family]

/-- Contents are read alike if the flow elements among them are. -/
theorem contents_reordered (h : n.Reordered n') (hlabel : n.label ∈ ["process", "subProcess"])
    (skip : Node → Bool) (hskip : ∀ c c' : Node, c'.label = c.label → skip c' = skip c)
    (hread : ∀ c ∈ n.children, ∀ c', c.Reordered c' →
      ∀ e, ofNode n.label c' = .ok e ↔ ofNode n.label c = .ok e) (c : Contents) :
    contentsOfNodes n.label skip n'.children = .ok c ↔
      contentsOfNodes n.label skip n.children = .ok c := by
  simp only [contentsOfNodes_eq_ok_iff]
  refine h.exists_mapM_iff Contents.Item.family
    (fun c c' hc => by simp [Node.isDocumentation, hc, hskip c c' hc])
    (fun _ _ _ => itemFamily_of_read hlabel) (fun c hc _ c' hcc' item => ?_)
    fun xs ys hsame => ?_
  · simp only [itemOfNode, hcc'.label_eq]
    cases hreader : Artifact.reader? c.label with
    | some read => simp only [map_eq_ok, Artifact.read_reordered hcc' hreader]
    | none =>
      simp only [ite_eq_iff', map_eq_ok, LaneSet.ofNode_reordered hcc', hread c hc c' hcc']
  · rw [hsame.foldr_eq fun i j c => c.cons_comm i j]

/-- **Flow elements are read alike**, at any depth of sub-processes. -/
theorem ofNode_reordered (h : n.Reordered n') (parent : String) (e : FlowElement) :
    ofNode parent n' = .ok e ↔ ofNode parent n = .ok e := by
  induction n using Node.children_induction generalizing n' parent e with
  | step n ih =>
    rw [ofNode_eq, ofNode_eq]
    simp only [h.fields_eq]
    -- labels are tried in the order in which the reader tries them
    by_cases hflow : n.label = "sequenceFlow"
    · simp only [hflow, if_true, map_eq_ok, SequenceFlow.ofNode_reordered h]
    rw [if_neg hflow, if_neg hflow]
    cases hform : EventPosition.form? n.label with
    | some form => simp only [map_eq_ok, Event.ofNode_reordered h hform]
    | none =>
    cases GatewayType.ofLabel? n.label with
    | some type => simp only [map_eq_ok, Gateway.ofNode_reordered h]
    | none =>
    cases hwork : TaskWork.form? n.label with
    | some form =>
      have hlabel : Activity.isLabel n.label = true := by simp [Activity.isLabel, hwork]
      simp only [bind_eq_ok, Activity.ofNode_reordered h hlabel, Activity.noContent_reordered h,
        TaskWork.read_reordered h hwork, h.checks_iff]
    | none =>
    by_cases hcall : n.label = "callActivity"
    · have hlabel : Activity.isLabel n.label = true := by simp [Activity.isLabel, hcall]
      simp only [hcall, if_true, bind_eq_ok, Activity.ofNode_reordered h hlabel,
        Activity.noContent_reordered h, h.checks_iff]
    rw [if_neg hcall, if_neg hcall]
    by_cases hsub : n.label = "subProcess"
    · have hlabel : Activity.isLabel n.label = true := by simp [Activity.isLabel, hsub]
      have hcontents := contents_reordered h (by simp [hsub]) Loop.isLoop
        (fun c c' hc => by simp [Loop.isLoop, hc]) fun c hc c' hcc' => ih c hc hcc' n.label
      rw [if_pos hsub, if_pos hsub]
      simp only [bind_eq_ok, Activity.ofNode_reordered h hlabel, hcontents, h.checks_iff]
    · rw [if_neg hsub, if_neg hsub]

end FlowElement

theorem Process.ofNode_reordered (h : n.Reordered n') (hlabel : n.label = "process")
    (p : Process) : ofNode n' = .ok p ↔ ofNode n = .ok p := by
  have hcontents := FlowElement.contents_reordered h (by simp [hlabel]) (fun _ => false)
    (fun _ _ _ => rfl) fun c _ c' hcc' => FlowElement.ofNode_reordered hcc' n.label
  simp only [ofNode, bind_eq_ok, h.fields_eq, h.checks_iff, hcontents]

/-! ## Conversation nodes and collaborations -/

namespace ConversationNode

/-- Reads a child below a node with the label `parent`. -/
def nodeOfNode (parent : String) (n : Node) : Reading ConversationNode :=
  if isLabel n.label then ofNode n else throw (.unknownLabel n.label parent)

theorem allOfNodes_eq (parent : String) (ns : List Node) :
    allOfNodes parent ns = (ns.filter (!·.isDocumentation)).mapM (nodeOfNode parent) := by
  induction ns with
  | nil => rw [allOfNodes]; rfl
  | cons m ns ih =>
    rw [allOfNodes]
    cases hdoc : m.isDocumentation with
    | true => simp [hdoc, ih]
    | false =>
      rw [List.filter_cons_of_pos (by simp [hdoc]), List.mapM_cons, nodeOfNode, ih]
      cases isLabel m.label <;> simp

/-- **Conversation nodes are read alike**, at any depth. -/
theorem ofNode_reordered (h : n.Reordered n') (c : ConversationNode) :
    ofNode n' = .ok c ↔ ofNode n = .ok c := by
  induction n using Node.children_induction generalizing n' c with
  | step n ih =>
    have hnodes (hlabel : n.label = "subConversation") (cs : List ConversationNode) :
        allOfNodes n.label n'.children = .ok cs ↔ allOfNodes n.label n.children = .ok cs := by
      rw [allOfNodes_eq, allOfNodes_eq]
      refine h.mapM_content_iff (f := .conversationNodes) (fun d x hx => ?_)
        (fun d hd d' hdd' x => ?_) cs
      · unfold nodeOfNode at hx
        split at hx
        · exact Family.of_conversation (by simp [hlabel]) ‹_›
        · cases hx
      · simp only [nodeOfNode, hdd'.label_eq, ite_eq_iff', ih d hd hdd']
    rw [ofNode_eq, ofNode_eq]
    simp only [bind_eq_ok, h.fields_eq, h.checks_iff]
    -- the label decides only after the fields that all conversation nodes share
    refine exists_congr fun id => and_congr_right fun _ => exists_congr fun participants =>
      and_congr_right fun _ => exists_congr fun identity => and_congr_right fun _ =>
      exists_congr fun name => and_congr_right fun _ => exists_congr fun flows =>
      and_congr_right fun _ => ?_
    split
    · rename_i hlabel
      simp only [bind_eq_ok, hnodes hlabel, h.checks_iff]
    · simp only [bind_eq_ok, h.checks_iff]
    · simp only [bind_eq_ok, h.checks_iff]

end ConversationNode

namespace Collaboration

/-- What one child of a collaboration describes. -/
inductive Item where
  | part (p : Part)
  | artifact (a : Artifact)

/-- The family of the children that describe the item. -/
def Item.family : Item → Family
  | part (.participant _) => .labelled "participant"
  | part (.messageFlow _) => .labelled "messageFlow"
  | part (.conversation _) => .conversationNodes
  | part (.link _) => .labelled "conversationLink"
  | artifact _ => .artifacts

/-- Stores an item at the end of its list. -/
def take (c : Collaboration) : Item → Collaboration
  | .part p => c.add p
  | .artifact a => { c with artifacts := c.artifacts ++ [a] }

theorem take_comm (c : Collaboration) (i j : Item) (h : i.family ≠ j.family) :
    (c.take i).take j = (c.take j).take i := by
  cases i with
  | part p =>
    cases j with
    | part q => cases p <;> cases q <;> first | rfl | contradiction
    | artifact b => cases p <;> rfl
  | artifact a =>
    cases j with
    | part q => cases q <;> rfl
    | artifact b => contradiction

/-- Reads a child of the collaboration `n` that is no artifact. -/
def partOfNode (n child : Node) : Reading Part :=
  if ConversationNode.isLabel child.label then .conversation <$> ConversationNode.ofNode child
  else if child.label = "participant" then .participant <$> Participant.ofNode child
  else if child.label = "messageFlow" then .messageFlow <$> MessageFlow.ofNode child
  else if child.label = "conversationLink" then .link <$> ConversationLink.ofNode child
  else throw (n.unknownChild child.label)

/-- Reads a child of the collaboration `n`. -/
def itemOfNode (n child : Node) : Reading Item :=
  match Artifact.reader? child.label with
  | some read => .artifact <$> read child
  | none => .part <$> partOfNode n child

theorem addChild_eq (n : Node) (c : Collaboration) (child : Node) :
    addChild n c child = c.take <$> itemOfNode n child := by
  unfold addChild itemOfNode
  cases Artifact.reader? child.label with
  | some read =>
    simp only
    cases read child <;> rfl
  | none =>
    simp only [partOfNode]
    split
    · cases ConversationNode.ofNode child <;> rfl
    split
    · rename_i hlabel
      simp only [hlabel, if_true]
      cases Participant.ofNode child <;> rfl
    · rename_i hlabel
      simp only [hlabel, String.reduceEq, if_false, if_true]
      cases MessageFlow.ofNode child <;> rfl
    · rename_i hlabel
      simp only [hlabel, String.reduceEq, if_false, if_true]
      cases ConversationLink.ofNode child <;> rfl
    · rename_i hparticipant hflow hlink
      rw [if_neg hparticipant, if_neg hflow, if_neg hlink]
      rfl

theorem foldlM_addChild_eq_ok_iff {c c' : Collaboration} {ms : List Node} :
    ms.foldlM (addChild n) c = .ok c' ↔
      ∃ items, ms.mapM (itemOfNode n) = .ok items ∧ items.foldl take c = c' := by
  induction ms generalizing c with
  | nil => simp
  | cons m ms ih =>
    rw [List.foldlM_cons, List.mapM_cons, addChild_eq]
    cases itemOfNode n m with
    | error e => simp
    | ok item => simp [bind_eq_ok, ih]

theorem itemFamily_of_read {m : Node} (hlabel : n.label ∈ ["collaboration", "globalConversation"])
    {item : Item} (h : itemOfNode n m = .ok item) : item.family = Family.of n.label m.label := by
  have hall : ∀ p ∈ ["collaboration", "globalConversation"],
      ∀ l ∈ ["participant", "messageFlow", "conversationLink"], Family.of p l = .labelled l := by
    decide
  unfold itemOfNode at h
  split at h
  · rename_i read hread
    obtain ⟨a, -, rfl⟩ := map_eq_ok.mp h
    exact (Family.of_artifact (List.mem_append_right ["process", "subProcess"] hlabel) hread).symm
  obtain ⟨p, hp, rfl⟩ := map_eq_ok.mp h
  unfold partOfNode at hp
  split at hp
  · rename_i hconversation
    obtain ⟨d, -, rfl⟩ := map_eq_ok.mp hp
    exact (Family.of_conversation
      (List.mem_append_left ["subConversation"] hlabel) hconversation).symm
  repeat
    split at hp
    · rename_i heq
      obtain ⟨x, -, rfl⟩ := map_eq_ok.mp hp
      rw [heq, hall n.label hlabel _ (by simp), Item.family]
  cases hp

theorem ofNode_reordered (h : n.Reordered n')
    (hlabel : n.label ∈ ["collaboration", "globalConversation"]) (isGlobal : Bool)
    (c : Collaboration) : ofNode isGlobal n' = .ok c ↔ ofNode isGlobal n = .ok c := by
  have hchildren (start : Collaboration) :
      n'.content.foldlM (addChild n') start = .ok c ↔
        n.content.foldlM (addChild n) start = .ok c := by
    simp only [foldlM_addChild_eq_ok_iff]
    refine h.exists_mapM_iff Item.family (fun c c' hc => by simp [Node.isDocumentation, hc])
      (fun _ _ _ => itemFamily_of_read hlabel) (fun m _ _ m' hmm' item => ?_) fun xs ys hsame => ?_
    · simp only [itemOfNode, hmm'.label_eq]
      cases hreader : Artifact.reader? m.label with
      | some read => simp only [map_eq_ok, Artifact.read_reordered hmm' hreader]
      | none =>
        simp only [partOfNode, map_eq_ok, ite_eq_iff', hmm'.fields_eq, h.fields_eq,
          ConversationNode.ofNode_reordered hmm', Participant.ofNode_reordered hmm',
          MessageFlow.ofNode_reordered hmm', ConversationLink.ofNode_reordered hmm']
    · rw [hsame.foldl_eq take_comm]
  simp only [ofNode, bind_eq_ok, h.fields_eq, h.checks_iff, hchildren]

end Collaboration

end BpmnModel
