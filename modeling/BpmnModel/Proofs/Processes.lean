import BpmnModel.Proofs.FlowReading

/-!
# Processes, written and read back

* `Process.writes` — writing a process fails exactly when something in it has no place in documents.
* `Process.of_read` — a process that was read is written again, and could be built.
-/

namespace BpmnModel

variable {n : Node}

namespace Process

/-- The node is that of a process and is read as it. -/
def ReadFrom (p : Process) (n : Node) : Prop := n.label = "process" ∧ ofNode n = .ok p

theorem carries_iff {p : Process} {f : Feature} : (Element.root (.process p)).Carries f ↔
    (f = .extensionValues ∧ p.identity.extensionValues ≠ []) ∨
      (f = .resourceRoles ∧ p.resources ≠ []) ∨
      (f = .correlationSubscriptions ∧ p.subscriptions ≠ []) := by
  constructor
  · rintro (h | h)
    · exact .inl h
    · cases h with
      | processResources h => exact .inr (.inl ⟨rfl, h⟩)
      | subscriptions h => exact .inr (.inr ⟨rfl, h⟩)
  · rintro (h | ⟨rfl, h⟩ | ⟨rfl, h⟩)
    · exact .inl h
    · exact .inr (.processResources h)
    · exact .inr (.subscriptions h)

/-- The node that `toNode` adds the contents to. -/
def node (p : Process) : Node :=
  let n := Node.ofIdentity "process" p.identity
  let n := (n.setText? "name" p.name).setWord "processType" p.type
  let n := (n.set? "isExecutable" (p.isExecutable.map .flag)).setFlag "isClosed" p.isClosed false
  let n := n.setRefs "supports" p.supports
  let n := n.setRef? "definitionalCollaborationRef" p.definitionalCollaborationRef
  n.setRefs "supportedInterfaceRefs" p.supportedInterfaceRefs

theorem readFrom_node {p : Process} {ens lns ans : List Node} (ha : p.Assembled)
    (hv : p.identity.extensionValues = []) (hr : p.resources = []) (hs : p.subscriptions = [])
    (hes : List.Forall₂ FlowElement.ReadFrom p.container.elements ens)
    (hls : List.Forall₂ (fun s n => n.label = "laneSet" ∧ LaneSet.ofNode n = .ok s)
      p.container.laneSets lns)
    (has : List.Forall₂ Artifact.ReadFrom p.artifacts ans) :
    p.ReadFrom (p.node.pushAll (ens ++ lns ++ ans)) := by
  have hed : Node.AllContent ens :=
    forall_of_forall₂ hes fun _ _ => FlowElement.ReadFrom.not_documentation
  have hld := Node.allContent_of_forall₂ hls (by decide)
  have had : Node.AllContent ans :=
    forall_of_forall₂ has fun _ _ => Artifact.ReadFrom.not_documentation
  have hcontents : FlowElement.contentsOfNodes "process" (fun _ => false)
      (p.identity.documentation.map Documentation.toNode ++ (ens ++ (lns ++ ans))) =
        .ok ⟨p.container.elements, p.container.laneSets, p.artifacts⟩ := by
    rw [← List.append_assoc ens]
    refine FlowElement.contentsOfNodes_eq_ok ?_ ?_ hes hls has
    · simp
    · simp
  have hassemble : Container.assemble p.container.elements p.container.laneSets = .ok p.container :=
    Container.assemble_of_wired (assembled_iff.mp ha).wired
  refine ⟨by simp [node], ?_⟩
  simp [ofNode, node, Identity.ofNode_eq_ok hv, hed, hld, had, hcontents, hassemble, bare]
  rw [← hr, ← hs]

theorem writes {p : Process} (ha : p.Assembled) :
    Writes p.toNode (Element.root (.process p)).Carried p.reread.ReadFrom := by
  have hes : ∀ e ∈ p.container.elements,
      Writes e.toNode (Element.flowElement e).Carried e.reread.ReadFrom :=
    fun e he => FlowElement.writes ((assembled_iff.mp ha).inner e he)
  have hcarried (id : Id) (f : Feature) : (Element.root (.process p)).Carried id f ↔
      (id = p.identity.id ∧ (Element.root (.process p)).Carries f) ∨
        ∃ c ∈ p.container.owned ++ p.artifacts.map .artifact, c.Carried id f := Element.carried_iff
  unfold toNode
  cases hr : p.resources with
  | cons r rs =>
    refine .inr ⟨p.identity.id, .resourceRoles, rfl, (hcarried _ _).mpr (.inl ⟨rfl, ?_⟩)⟩
    exact carries_iff.mpr (.inr (.inl ⟨rfl, by simp [hr]⟩))
  | nil =>
    cases hs : p.subscriptions with
    | cons x xs =>
      refine .inr ⟨p.identity.id, .correlationSubscriptions, rfl, (hcarried _ _).mpr (.inl ⟨rfl, ?_⟩)⟩
      exact carries_iff.mpr (.inr (.inr ⟨rfl, by simp [hs]⟩))
    | nil =>
      refine ((p.identity.writes "process").bind fun n hn =>
        (FlowElement.contents_writes hes _).imp fun m hm => ?_).congr fun id f => ?_
      · obtain ⟨rfl, hv⟩ := hn
        obtain ⟨ens, lns, ans, rfl, hens, hlns, hans⟩ := hm
        exact readFrom_node ha.reread hv hr hs hens hlns hans
      · rw [hcarried, carries_iff]
        simp [hr, hs]

theorem rewrites_of_below {p : Process} (hi : n.Identifies p.identity) (hr : p.resources = [])
    (hs : p.subscriptions = [])
    (hes : ∀ e ∈ p.container.elements, ∃ c ∈ n.children, Rewrites 0 e.toNode c)
    (hls : ∀ s ∈ p.container.laneSets, ∃ c ∈ n.children, LaneSet.ofNode c = .ok s)
    (has : ∀ x ∈ p.artifacts, ∃ c ∈ n.children, Artifact.ReadFrom x c) :
    Rewrites 0 p.toNode n := by
  obtain ⟨ens, lns, ans, hens, hlns, hans, hfits⟩ :=
    FlowElement.ReadAt.contents_rewrites hes hls has
  refine ⟨p.node.pushAll (ens ++ lns ++ ans), ?_, ?_⟩
  · unfold toNode
    rw [hr, hs, hens, hlns, hans, Identity.toNode, hi.extensionValues]
    rfl
  · intro k _ hk
    obtain ⟨j, rfl, hj⟩ := hi.fits hk "process"
    exact (Node.fits_pushAll _).mpr ⟨by simpa [node] using hj, hfits j hk⟩

/-- **A process that was read is written again, and could be built.** -/
theorem of_read {p : Process} (h : ofNode n = .ok p) : Rewrites 0 p.toNode n ∧ p.Assembled ∧
    ∀ x ∈ (Element.root (.process p)).subtree, x.Proper := by
  simp only [ofNode, bind_eq_ok, checked_eq_ok, pure_eq_ok, Except.ok.injEq] at h
  obtain ⟨id, hid, identity, hi, name, -, type, -, isExecutable, -, isClosed, -, supports, -,
    ref, -, refs, -, -, -, contents, hcontents, c, hassemble, rfl⟩ := h
  obtain ⟨hcomplete, hes, hls, has⟩ := FlowElement.readAt_of_assemble
    (fun m _ e he => FlowElement.readAt_of_read he) hcontents hassemble
  refine ⟨?_, assembled_iff.mpr hcomplete, ?_⟩
  · exact rewrites_of_below (.of_read hid hi) rfl rfl
      (fun e he => (hes e he).imp fun m hm => ⟨hm.1, hm.2.rewrites⟩) hls has
  · apply Element.proper_of_children (by rintro a w ⟨⟩)
    intro x hx
    simp only [Element.children, Container.owned, List.mem_append, List.mem_map] at hx
    rcases hx with (⟨e, he, rfl⟩ | ⟨s, -, rfl⟩) | ⟨a, -, rfl⟩
    · obtain ⟨m, -, he⟩ := hes e he
      exact he.proper
    · exact Element.Flowless.proper trivial
    · exact Element.Flowless.proper trivial

end Process

end BpmnModel
