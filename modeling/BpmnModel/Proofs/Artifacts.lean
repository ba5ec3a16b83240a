import BpmnModel.Proofs.Definitions

/-!
# Artifacts, written and read back
-/

namespace BpmnModel

variable {n : Node}

namespace Association

theorem writes (a : Association) : Writes a.toNode (Element.artifact (.association a)).Carried
    (fun n => n.label = "association" ∧ ofNode n = .ok a) := by
  refine .leaf "association" _ rfl rfl nofun ?_
  intro h
  simp [ofNode, Identity.ofNode_eq_ok h]

theorem isLeaf_of_read {a : Association} (h : ofNode n = .ok a) :
    n.IsLeaf a.identity ["id", "sourceRef", "targetRef", "associationDirection"] := by
  simp only [ofNode, bind_eq_ok, pure_eq_ok, Except.ok.injEq] at h
  obtain ⟨id, hid, -, -, -, -, -, -, identity, hi, ⟨⟩, hfinish, ⟨⟩, hcontent, rfl⟩ := h
  exact .of_read hid hi hfinish hcontent

theorem rewrites {a : Association} (h : ofNode n = .ok a) : Rewrites 0 a.toNode n :=
  .leaf "association" _ (isLeaf_of_read h).identifies (by simp)

end Association

namespace Group

theorem writes (g : Group) : Writes g.toNode (Element.artifact (.group g)).Carried
    (fun n => n.label = "group" ∧ ofNode n = .ok g) := by
  refine .leaf "group" _ rfl rfl nofun ?_
  intro h
  simp [ofNode, Identity.ofNode_eq_ok h]

theorem isLeaf_of_read {g : Group} (h : ofNode n = .ok g) :
    n.IsLeaf g.identity ["id", "categoryValueRef"] := by
  simp only [ofNode, bind_eq_ok, pure_eq_ok, Except.ok.injEq] at h
  obtain ⟨id, hid, -, -, identity, hi, ⟨⟩, hfinish, ⟨⟩, hcontent, rfl⟩ := h
  exact .of_read hid hi hfinish hcontent

theorem rewrites {g : Group} (h : ofNode n = .ok g) : Rewrites 0 g.toNode n :=
  .leaf "group" _ (isLeaf_of_read h).identifies (by simp)

end Group

namespace TextNote

theorem writes (t : TextNote) : Writes t.toNode (Element.artifact (.textNote t)).Carried
    (fun n => n.label = "textAnnotation" ∧ ofNode n = .ok t) := by
  refine .leaf "textAnnotation" _ rfl rfl nofun ?_
  intro h
  simp [ofNode, Identity.ofNode_eq_ok h]

theorem isLeaf_of_read {t : TextNote} (h : ofNode n = .ok t) :
    n.IsLeaf t.identity ["id", "text", "textFormat"] := by
  simp only [ofNode, bind_eq_ok, pure_eq_ok, Except.ok.injEq] at h
  obtain ⟨id, hid, -, -, identity, hi, -, -, ⟨⟩, hfinish, ⟨⟩, hcontent, rfl⟩ := h
  exact .of_read hid hi hfinish hcontent

theorem rewrites {t : TextNote} (h : ofNode n = .ok t) : Rewrites 0 t.toNode n :=
  .leaf "textAnnotation" _ (isLeaf_of_read h).identifies (by simp)

end TextNote

namespace Artifact

/-- The node is that of an artifact and is read as it. -/
def ReadFrom (a : Artifact) (n : Node) : Prop :=
  ∃ read, reader? n.label = some read ∧ read n = .ok a

theorem writes (a : Artifact) : Writes a.toNode (Element.artifact a).Carried a.ReadFrom := by
  cases a with
  | association a =>
    refine a.writes.imp fun n hn => ⟨_, by rw [hn.1, reader?], ?_⟩
    exact map_eq_ok.mpr ⟨a, hn.2, rfl⟩
  | group g =>
    refine g.writes.imp fun n hn => ⟨_, by rw [hn.1, reader?], ?_⟩
    exact map_eq_ok.mpr ⟨g, hn.2, rfl⟩
  | textNote t =>
    refine t.writes.imp fun n hn => ⟨_, by rw [hn.1, reader?], ?_⟩
    exact map_eq_ok.mpr ⟨t, hn.2, rfl⟩

theorem ReadFrom.not_documentation {a : Artifact} (h : a.ReadFrom n) :
    n.isDocumentation = false := by
  obtain ⟨read, hread, -⟩ := h
  by_contra hdoc
  have hlabel : n.label = "documentation" := by simpa [Node.isDocumentation] using hdoc
  rw [hlabel] at hread
  cases hread

theorem ReadFrom.rewrites {a : Artifact} (h : a.ReadFrom n) : Rewrites 0 a.toNode n := by
  obtain ⟨read, hread, hn⟩ := h
  unfold reader? at hread
  split at hread
  · cases hread
    obtain ⟨a, ha, rfl⟩ := map_eq_ok.mp hn
    exact Association.rewrites ha
  · cases hread
    obtain ⟨g, hg, rfl⟩ := map_eq_ok.mp hn
    exact Group.rewrites hg
  · cases hread
    obtain ⟨t, ht, rfl⟩ := map_eq_ok.mp hn
    exact TextNote.rewrites ht
  · cases hread

end Artifact

end BpmnModel
