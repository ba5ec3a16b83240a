import BpmnModel.Proofs.RecordedDefinitions
import Mathlib.Algebra.Order.Group.Multiset
import Mathlib.Tactic.Abel

/-!
# Collaborations, nothing missing

* `ConversationNode.recorded` — conversation nodes at any depth.
* `Collaboration.Sorted` — each child of a collaboration went to one of five lists.
* `Collaboration.recorded` — the main result.
-/

namespace BpmnModel

variable {n : Node}

/-! ## Participants, message flows and links -/

namespace Multiplicity

theorem records {m : Multiplicity} (hlabel : n.label = "participantMultiplicity")
    (h : ofNode n = .ok m) : m.toNode.Records n := by
  simp only [ofNode, bind_eq_ok] at h
  obtain ⟨minimum, -, maximum, -, ⟨⟩, hfinish, ⟨⟩, hcontent, -⟩ := h
  exact Recorded.records_of_anonymous hlabel rfl (by decide) hfinish hcontent (by simp [toNode])

end Multiplicity

namespace Participant

/-- There is one child if there is a multiplicity, and none else. -/
theorem records_of_multiplicity {cs : List Node} {found m : Option Multiplicity}
    (h : multiplicityOfNodes n cs found = .ok m) :
    (m = found ∧ cs = []) ∨
      (found = none ∧ List.Forall₂ Node.Records (m.map Multiplicity.toNode).toList cs) := by
  induction cs generalizing found with
  | nil =>
    cases h
    exact .inl ⟨rfl, rfl⟩
  | cons c cs ih =>
    rw [multiplicityOfNodes] at h
    split at h
    · rename_i hone
      simp only [Bool.and_eq_true, decide_eq_true_eq, Option.isNone_iff_eq_none] at hone
      obtain ⟨x, hx, h⟩ := bind_eq_ok.mp h
      rcases ih h with ⟨rfl, rfl⟩ | ⟨hnone, -⟩
      · exact .inr ⟨hone.2, .cons (Multiplicity.records hone.1 hx) .nil⟩
      · cases hnone
    · cases h

theorem recorded {p : Participant} (hlabel : n.label = "participant") (h : ofNode n = .ok p) :
    Recorded p.toNode n := by
  obtain ⟨hbears, hmultiplicity⟩ := bears_of_read h
  have hall : List.Forall₂ Node.Records (p.multiplicity.map Multiplicity.toNode).toList
      n.content := by
    rcases records_of_multiplicity hmultiplicity with ⟨hnone, hcontent⟩ | ⟨-, hall⟩
    · rw [hnone, hcontent]
      exact .nil
    · exact hall
  refine ⟨_, by rw [toNode, Identity.toNode, hbears.identifies.extensionValues]; rfl, ?_⟩
  exact Recorded.records_of_bears hlabel rfl (by decide) hbears
    (Node.RecordsAll.of_forall₂ hall).below_content (by simp)

end Participant

namespace MessageFlow

theorem recorded {f : MessageFlow} (hlabel : n.label = "messageFlow") (h : ofNode n = .ok f) :
    Recorded f.toNode n :=
  .leaf hlabel rfl (by decide) (isLeaf_of_read h) (by simp)

end MessageFlow

namespace ConversationLink

theorem recorded {l : ConversationLink} (hlabel : n.label = "conversationLink")
    (h : ofNode n = .ok l) : Recorded l.toNode n :=
  .leaf hlabel rfl (by decide) (isLeaf_of_read h) (by simp)

end ConversationLink

/-! ## Conversation nodes -/

namespace ConversationNode

theorem recorded_of_allOfNodes {parent : String} {ns : List Node} {cs : List ConversationNode}
    (hread : ∀ m ∈ ns, isLabel m.label = true → ∀ c, ofNode m = .ok c → Recorded c.toNode m)
    (h : allOfNodes parent ns = .ok cs) :
    List.Forall₂ (fun c m => Recorded c.toNode m) cs (ns.filter (!·.isDocumentation)) := by
  induction ns generalizing cs with
  | nil =>
    rw [allOfNodes] at h
    cases h
    exact .nil
  | cons m ns ih =>
    obtain ⟨hreadm, hread⟩ := List.forall_mem_cons.mp hread
    rw [allOfNodes] at h
    split at h
    · rename_i hdoc
      rw [List.filter_cons_of_neg (by simpa using hdoc)]
      exact ih hread h
    · rename_i hdoc
      rw [List.filter_cons_of_pos (by simpa using hdoc)]
      split at h
      · rename_i hlabel
        simp only [bind_eq_ok, pure_eq_ok, Except.ok.injEq] at h
        obtain ⟨c, hc, cs, hcs, rfl⟩ := h
        exact .cons (hreadm hlabel c hc) (ih hread hcs)
      · cases h

/-- **A conversation node that was read is written, with nothing missing that is kept.** -/
theorem recorded {c : ConversationNode} (hlabel : isLabel n.label = true) (h : ofNode n = .ok c) :
    Recorded c.toNode n := by
  induction n using Node.children_induction generalizing c with
  | step n ih =>
    cases readAt_of_read h with
    | conversation hother hkeys hleaf =>
      have hlabel : n.label = "conversation" := by simpa [isLabel, hother] using hlabel
      refine ⟨_, by rw [toNode, baseToNode_eq _ hkeys hleaf.identifies], ?_⟩
      exact Recorded.records_of_bears hlabel rfl (by decide) hleaf.toBears
        (Node.recordsBelow_of_content hleaf.content) (by simp [baseNode])
    | subConversation hlabel hkeys hbears hnodes =>
      obtain ⟨ms, hms, hall⟩ :=
        Recorded.mapM (recorded_of_allOfNodes (fun m hm hl c => ih m hm hl) hnodes)
      refine ⟨_, by rw [toNode, baseToNode_eq _ hkeys hbears.identifies, allToNodes_eq, hms]; rfl,
        ?_⟩
      exact Recorded.records_of_bears hlabel rfl (by decide) hbears
        (Node.RecordsAll.of_forall₂ hall).below_content (by simp [baseNode])
    | callConversation hlabel hkeys hleaf =>
      refine ⟨_, by rw [toNode, baseToNode_eq _ hkeys hleaf.identifies]; rfl, ?_⟩
      exact Recorded.records_of_bears hlabel rfl (by decide) hleaf.toBears
        (Node.recordsBelow_of_content hleaf.content) (by simp [baseNode])

end ConversationNode

/-! ## Collaborations -/

namespace Collaboration

/-- The nodes that the parts of a collaboration were read from. -/
structure SortedFrom (c : Collaboration) (ps fs ds ls as : List Node) : Prop where
  participants : List.Forall₂ (fun p n => Recorded p.toNode n) c.participants.items ps
  messageFlows : List.Forall₂ (fun f n => Recorded f.toNode n) c.messageFlows.items fs
  conversations : List.Forall₂ (fun d n => Recorded d.toNode n) c.conversations.items ds
  links : List.Forall₂ (fun l n => Recorded l.toNode n) c.links.items ls
  artifacts : List.Forall₂ (fun a n => Recorded a.toNode n) c.artifacts as

/-- Each of the nodes went to one of the five lists of the collaboration. -/
def Sorted (c : Collaboration) (ns : List Node) : Prop :=
  ∃ ps fs ds ls as, c.SortedFrom ps fs ds ls as ∧ (ps ++ fs ++ ds ++ ls ++ as).Perm ns

/-- A child goes to the end of one of five lists. -/
theorem Sorted.addChild {c c' : Collaboration} {m : Node} {ns : List Node} (h : c.Sorted ns)
    (hadd : Collaboration.addChild n c m = .ok c') : c'.Sorted (ns ++ [m]) := by
  obtain ⟨ps, fs, ds, ls, as, h, hperm⟩ := h
  have hone : (ps ++ fs ++ ds ++ ls ++ as ++ [m]).Perm (ns ++ [m]) := hperm.append_right [m]
  -- lists of nodes up to order are sums
  simp only [← Multiset.coe_eq_coe, ← Multiset.coe_add] at hone
  unfold Sorted
  simp only [← Multiset.coe_eq_coe, ← Multiset.coe_add, ← hone]
  unfold Collaboration.addChild at hadd
  split at hadd
  · rename_i read hread
    obtain ⟨a, ha, hc⟩ := bind_eq_ok.mp hadd
    cases hc
    have ha := Artifact.ReadFrom.recorded ⟨read, hread, ha⟩
    refine ⟨ps, fs, ds, ls, as ++ [m],
      { h with artifacts := Node.forall₂_concat h.artifacts ha }, ?_⟩
    rw [← Multiset.coe_add]
    abel
  · split at hadd
    · rename_i hlabel
      obtain ⟨d, hd, rfl⟩ := map_eq_ok.mp hadd
      have hd := ConversationNode.recorded hlabel hd
      refine ⟨ps, fs, ds ++ [m], ls, as,
        { h with conversations := Node.forall₂_concat h.conversations hd }, ?_⟩
      rw [← Multiset.coe_add]
      abel
    · split at hadd
      · rename_i hlabel
        obtain ⟨p, hp, rfl⟩ := map_eq_ok.mp hadd
        have hp := Participant.recorded hlabel hp
        refine ⟨ps ++ [m], fs, ds, ls, as,
          { h with participants := Node.forall₂_concat h.participants hp }, ?_⟩
        rw [← Multiset.coe_add]
        abel
      · rename_i hlabel
        obtain ⟨f, hf, rfl⟩ := map_eq_ok.mp hadd
        have hf := MessageFlow.recorded hlabel hf
        refine ⟨ps, fs ++ [m], ds, ls, as,
          { h with messageFlows := Node.forall₂_concat h.messageFlows hf }, ?_⟩
        rw [← Multiset.coe_add]
        abel
      · rename_i hlabel
        obtain ⟨l, hl, rfl⟩ := map_eq_ok.mp hadd
        have hl := ConversationLink.recorded hlabel hl
        refine ⟨ps, fs, ds, ls ++ [m], as,
          { h with links := Node.forall₂_concat h.links hl }, ?_⟩
        rw [← Multiset.coe_add]
        abel
      · cases hadd

/-- **A collaboration that was read is written, with nothing missing that is kept of its node.** -/
theorem recorded {c : Collaboration} {isGlobal : Bool}
    (hlabel : n.label = if isGlobal then "globalConversation" else "collaboration")
    (h : ofNode isGlobal n = .ok c) : Recorded c.toNode n := by
  obtain ⟨hbelow, hi⟩ := readBelow_of_read h
  simp only [ofNode, bind_eq_ok] at h
  obtain ⟨id, -, identity, -, name, -, isClosed, -, ⟨⟩, hfinish, hfold⟩ := h
  have hstart : Sorted { Collaboration.bare id isGlobal with identity, name, isClosed } [] :=
    ⟨[], [], [], [], [], ⟨.nil, .nil, .nil, .nil, .nil⟩, .nil⟩
  obtain ⟨ps, fs, ds, ls, as, ⟨hps, hfs, hds, hls, has⟩, hperm⟩ :=
    Node.foldlM_concat (fun _ _ _ _ h hadd => h.addChild hadd) hstart hfold
  obtain ⟨pns, hpns, hpall⟩ := Recorded.mapM hps
  obtain ⟨fns, hfns, hfall⟩ := Recorded.mapM hfs
  obtain ⟨dns, hdns, hdall⟩ := Recorded.mapM hds
  obtain ⟨lns, hlns, hlall⟩ := Recorded.mapM hls
  obtain ⟨ans, hans, haall⟩ := Recorded.mapM has
  have hall : Node.RecordsAll (pns ++ fns ++ dns ++ lns ++ ans) n.content := by
    refine Node.RecordsAll.reorder ?_ (.refl _) hperm
    exact .of_forall₂ (List.rel_append (List.rel_append (List.rel_append (List.rel_append hpall
      hfall) hdall) hlall) haall)
  have hlabels : Node.fieldsOf n.label = ["id", "name", "isClosed"] ∧
      Node.identified n.label = true ∧ Node.isExpression n.label = false := by
    rw [hlabel]
    cases isGlobal <;> exact ⟨rfl, by decide, by decide⟩
  refine ⟨_, toNode_of_parts hbelow hi.extensionValues hpns hfns hdns hlns hans, ?_⟩
  refine .of_content hi hlabels.2.1 (Recorded.closed_of_finish rfl hfinish hlabels.1) hlabels.2.2
    hall.below_content ?_ ?_
  · simp [hlabel]
  · simp

end Collaboration

end BpmnModel
