import BpmnModel.Proofs.Succession

/-!
# The flows listed at a node

Every flow of a container is listed at the nodes that it touches.  A node that came without listed
flows lists nothing else, and in the order of the container, for as long as it stays.

* `Edges.touching` — the flows of a list that touch a node, on both sides.
* `Edges.completed` — what a node lists when all flows of a list were attached to it.
* `Container.Exact` — a node of a container lists the flows that touch it, and only those.
* `Container.Stayed` — a node was put into the container with no flows listed and was not taken out
  since.
* `Reachable.edges_listed` — what is listed at the nodes of every container after any run of edits.
-/

namespace BpmnModel

/-- Where the names are distinct, taking out the first of a name takes out all of that name. -/
theorem eraseP_eq_filter {α : Type} {name : α → Id} {xs : List α} (hnd : (xs.map name).Nodup)
    (k : Id) : xs.eraseP (name · = k) = xs.filter (name · ≠ k) := by
  induction xs with
  | nil => rfl
  | cons x xs ih =>
    obtain ⟨hx, hxs⟩ := List.nodup_cons.mp hnd
    by_cases heq : name x = k
    · have hkeep : ∀ y ∈ xs, name y ≠ k := fun y hy hyk =>
        hx (heq ▸ hyk ▸ List.mem_map_of_mem hy)
      rw [List.eraseP_cons_of_pos (by simpa using heq), List.filter_cons_of_neg (by simpa using heq),
        List.filter_eq_self.mpr (by simpa using hkeep)]
    · rw [List.eraseP_cons_of_neg (by simpa using heq), List.filter_cons_of_pos (by simpa using heq),
        ih hxs]

/-! ## Lists of flows -/

namespace Edges

variable {node : Id} {edges : Edges} {flows done : List SequenceFlow} {flow : SequenceFlow}

/-- The flows that touch a node, in order: those that end there and those that start there. -/
def touching (node : Id) (flows : List SequenceFlow) : Edges where
  incoming := (flows.filter (·.target.id = node)).map fun f => ⟨f.id⟩
  outgoing := (flows.filter (·.source.id = node)).map fun f => ⟨f.id⟩

/-- The listed flows and behind them, in order, the flows that touch the node and are not listed. -/
def completed (node : Id) (edges : Edges) (flows : List SequenceFlow) : Edges where
  incoming := edges.incoming ++
    (touching node flows).incoming.filter (!edges.incoming.contains ·)
  outgoing := edges.outgoing ++
    (touching node flows).outgoing.filter (!edges.outgoing.contains ·)

theorem completed_none : completed node .none flows = touching node flows := by
  simp [completed, touching, none]

/-- A flow of a fresh identifier comes last where it touches the node and is not listed. -/
theorem attach_completed (hfresh : flow.id ∉ flows.map SequenceFlow.id) :
    attach node (completed node edges flows) flow = completed node edges (flows ++ [flow]) := by
  have hnot (p : SequenceFlow → Bool) :
      (⟨flow.id⟩ : RefTo .sequenceFlow) ∉ (flows.filter p).map fun f => ⟨f.id⟩ := by
    intro hm
    obtain ⟨f, hf, heq⟩ := List.mem_map.mp hm
    exact hfresh (List.mem_map.mpr ⟨f, List.mem_of_mem_filter hf, congrArg Ref.id heq⟩)
  unfold attach attachOutgoing attachIncoming completed touching
  by_cases hs : flow.source.id = node <;> by_cases ht : flow.target.id = node <;>
    by_cases ho : ⟨flow.id⟩ ∈ edges.outgoing <;> by_cases hi : ⟨flow.id⟩ ∈ edges.incoming <;>
      simp [hs, ht, ho, hi, hnot]

theorem foldl_attach_completed (hnd : ((done ++ flows).map SequenceFlow.id).Nodup) :
    flows.foldl (attach node) (completed node edges done) =
      completed node edges (done ++ flows) := by
  induction flows generalizing done with
  | nil => rw [List.append_nil]; rfl
  | cons flow flows ih =>
    have hfresh : flow.id ∉ done.map SequenceFlow.id := by
      rw [List.map_append, List.map_cons, List.nodup_append] at hnd
      exact fun hm => hnd.2.2 _ hm _ List.mem_cons_self rfl
    rw [List.foldl_cons, attach_completed hfresh, ih (by simpa using hnd), List.append_assoc,
      List.singleton_append]

/-- Attaching flows of distinct identifiers to a node completes what it lists. -/
theorem foldl_attach_eq_completed (hnd : (flows.map SequenceFlow.id).Nodup) :
    flows.foldl (attach node) edges = completed node edges flows := by
  have hstart : completed node edges [] = edges := by simp [completed, touching]
  conv_lhs => rw [← hstart]
  exact foldl_attach_completed (show (([] ++ flows).map SequenceFlow.id).Nodup from hnd)

theorem detach_touching (gone : Id) :
    (touching node flows).detach gone = touching node (flows.filter (·.id ≠ gone)) := by
  simp only [detach, touching, List.filter_map, List.filter_filter, Function.comp_def,
    Bool.and_comm]

theorem nodup_touching (node : Id) (hnd : (flows.map SequenceFlow.id).Nodup) :
    (touching node flows).incoming.Nodup ∧ (touching node flows).outgoing.Nodup := by
  have hnodup (p : SequenceFlow → Bool) :
      ((flows.filter p).map fun f => (⟨f.id⟩ : RefTo .sequenceFlow)).Nodup := by
    have hsub := (List.filter_sublist (p := p) (l := flows)).map SequenceFlow.id
    refine List.Nodup.of_map Ref.id ?_
    rw [List.map_map]
    exact hsub.nodup hnd
  exact ⟨hnodup _, hnodup _⟩

end Edges

theorem FlowElement.edges?_foldl_attach (flows : List SequenceFlow) (e : FlowElement) :
    (flows.foldl attach e).edges? = e.edges?.map (flows.foldl (Edges.attach e.id)) := by
  rw [foldl_attach_eq, edges?_mapEdges]

/-! ## Containers -/

namespace Container

variable {c c' : Container} {e : FlowElement} {node : Id} {change : Change}

/-- The node lists the flows of the container that touch it, in order, and no others. -/
def Exact (c : Container) (node : Id) : Prop :=
  ∀ e ∈ c.elements, e.id = node → ∀ edges, e.edges? = some edges →
    edges = .touching node c.sequenceFlows

theorem map_id_sequenceFlows_sublist (c : Container) :
    (c.sequenceFlows.map SequenceFlow.id).Sublist (c.elements.map FlowElement.id) := by
  rw [sequenceFlows]
  induction c.elements with
  | nil => exact List.Sublist.slnil
  | cons e es ih =>
    rw [List.map_cons, List.filterMap_cons]
    cases he : e.sequenceFlow? with
    | none => exact ih.cons _
    | some f =>
      rw [FlowElement.id_of_sequenceFlow? he]
      exact ih.cons_cons _

theorem Wired.nodup_flows (h : c.Wired) : (c.sequenceFlows.map SequenceFlow.id).Nodup :=
  c.map_id_sequenceFlows_sublist.nodup h.nodup

theorem sequenceFlows_mapEdges (f : FlowElement → Edges → Edges) (es : List FlowElement) :
    (es.map fun e => e.mapEdges (f e)).filterMap FlowElement.sequenceFlow? =
      es.filterMap FlowElement.sequenceFlow? := by
  rw [List.filterMap_map]
  simp only [Function.comp_def, FlowElement.sequenceFlow?_mapEdges]

theorem map_id_insert (hins : c.insert e = .ok c') :
    c'.elements.map FlowElement.id = c.elements.map FlowElement.id ++ [e.id] := by
  obtain ⟨-, ⟨flow, rfl, rfl⟩ | ⟨-, rfl⟩⟩ := insert_cases hins
  · simp
  · simp [FlowElement.id_foldl_attach]

/-- An insertion keeps what is exact, and a node that comes with no flows listed becomes exact. -/
theorem Exact.insert (h : c.Exact node) (hwired : c.Wired) (hins : c.insert e = .ok c')
    (hbare : e.id = node → ∀ edges, e.edges? = some edges → edges = .none) : c'.Exact node := by
  obtain ⟨hfind, ⟨flow, rfl, rfl⟩ | ⟨hnode, rfl⟩⟩ := insert_cases hins
  · have hfresh : flow.id ∉ c.sequenceFlows.map SequenceFlow.id := fun hm =>
      not_mem_of_find?_eq_none hfind (c.map_id_sequenceFlows_sublist.subset hm)
    have hflows : sequenceFlows ⟨c.elements.map (·.attach flow) ++ [.sequenceFlow flow],
        c.laneSets⟩ = c.sequenceFlows ++ [flow] := by
      rw [sequenceFlows, List.filterMap_append]
      exact congrArg (· ++ [flow]) (sequenceFlows_mapEdges (fun e edges => edges.attach e.id flow) _)
    intro x hx hid edges hedges
    rw [hflows]
    rcases List.mem_append.mp hx with hx | hx
    · obtain ⟨y, hy, rfl⟩ := List.mem_map.mp hx
      rw [FlowElement.id_attach] at hid
      rw [FlowElement.attach, FlowElement.edges?_mapEdges, Option.map_eq_some_iff] at hedges
      obtain ⟨before, hbefore, rfl⟩ := hedges
      rw [h y hy hid before hbefore, hid]
      rw [← Edges.completed_none, ← Edges.completed_none]
      exact Edges.attach_completed hfresh
    · rw [List.mem_singleton.mp hx] at hedges
      cases hedges
  · have hflows : sequenceFlows ⟨c.elements ++ [c.sequenceFlows.foldl .attach e], c.laneSets⟩ =
        c.sequenceFlows := by
      rw [sequenceFlows, List.filterMap_append, List.filterMap_cons,
        FlowElement.sequenceFlow?_foldl_attach, hnode]
      exact List.append_nil _
    intro x hx hid edges hedges
    rw [hflows]
    rcases List.mem_append.mp hx with hx | hx
    · exact h x hx hid edges hedges
    · rw [List.mem_singleton.mp hx] at hid hedges
      rw [FlowElement.id_foldl_attach] at hid
      rw [FlowElement.edges?_foldl_attach, Option.map_eq_some_iff] at hedges
      obtain ⟨before, hbefore, rfl⟩ := hedges
      rw [hbare hid before hbefore, hid, Edges.foldl_attach_eq_completed hwired.nodup_flows,
        Edges.completed_none]

theorem sequenceFlows_filter (es : List FlowElement) (gone : Id) :
    (es.filter (·.id ≠ gone)).filterMap FlowElement.sequenceFlow? =
      (es.filterMap FlowElement.sequenceFlow?).filter (·.id ≠ gone) := by
  induction es with
  | nil => rfl
  | cons e es ih =>
    cases hflow : e.sequenceFlow? with
    | none =>
      rw [List.filterMap_cons_none hflow, ← ih, List.filter_cons]
      split
      · rw [List.filterMap_cons_none hflow]
      · rfl
    | some f =>
      rw [List.filterMap_cons_some hflow, List.filter_cons, List.filter_cons,
        FlowElement.id_of_sequenceFlow? hflow, ← ih]
      split
      · rw [List.filterMap_cons_some hflow]
      · rfl

/-- A removal keeps what is exact. -/
theorem Exact.remove? (h : c.Exact node) (hwired : c.Wired) {gone : Id}
    (hrem : c.remove? gone = some (e, c')) : c'.Exact node := by
  obtain ⟨hfind, hcases⟩ := remove?_cases hrem
  rw [eraseP_eq_filter hwired.nodup] at hcases
  obtain ⟨flow, rfl, rfl⟩ | ⟨hnode, rfl⟩ := hcases
  · have hflows : sequenceFlows ⟨(c.elements.filter (·.id ≠ gone)).map (.detach gone), c.laneSets⟩ =
        c.sequenceFlows.filter (·.id ≠ gone) :=
      (sequenceFlows_mapEdges (fun _ edges => edges.detach gone) _).trans
        (sequenceFlows_filter c.elements gone)
    intro x hx hid edges hedges
    obtain ⟨y, hy, rfl⟩ := List.mem_map.mp hx
    rw [FlowElement.id_detach] at hid
    rw [FlowElement.detach, FlowElement.edges?_mapEdges, Option.map_eq_some_iff] at hedges
    obtain ⟨before, hbefore, rfl⟩ := hedges
    rw [h y (List.mem_of_mem_filter hy) hid before hbefore, hflows, Edges.detach_touching]
  · have hflows : sequenceFlows ⟨c.elements.filter (·.id ≠ gone), c.laneSets⟩ = c.sequenceFlows := by
      refine (sequenceFlows_filter c.elements gone).trans (List.filter_eq_self.mpr ?_)
      intro f hf
      obtain ⟨y, hy, hyf⟩ := mem_sequenceFlows.mp hf
      rw [decide_eq_true_iff]
      intro heq
      have hid : e.id = gone := by simpa using List.find?_some hfind
      have hye : y = e := List.inj_on_of_nodup_map hwired.nodup hy (List.mem_of_find?_eq_some hfind)
        ((FlowElement.id_of_sequenceFlow? hyf).trans (heq.trans hid.symm))
      rw [hye, hnode] at hyf
      cases hyf
    intro x hx hid edges hedges
    rw [hflows]
    exact h x (List.mem_of_mem_filter hx) hid edges hedges

/-- What happens within the elements of a container does not matter. -/
theorem Exact.mapContainer (h : c.Exact node) (step : Id) (f : Container → Container) :
    Exact ⟨c.elements.map fun e => if e.id = step then e.mapContainer f else e, c.laneSets⟩ node := by
  have hkeep (e : FlowElement) : (if e.id = step then e.mapContainer f else e).id = e.id ∧
      (if e.id = step then e.mapContainer f else e).edges? = e.edges? ∧
      (if e.id = step then e.mapContainer f else e).sequenceFlow? = e.sequenceFlow? := by
    split
    · exact ⟨e.id_mapContainer f, by cases e <;> rfl, e.sequenceFlow?_mapContainer f⟩
    · exact ⟨rfl, rfl, rfl⟩
  have hflows : sequenceFlows ⟨c.elements.map fun e => if e.id = step then e.mapContainer f else e,
      c.laneSets⟩ = c.sequenceFlows := by
    rw [sequenceFlows, List.filterMap_map]
    simp only [Function.comp_def, (hkeep _).2.2]
    rfl
  intro x hx hid edges hedges
  obtain ⟨y, hy, rfl⟩ := List.mem_map.mp hx
  rw [(hkeep y).1] at hid
  rw [(hkeep y).2.1] at hedges
  rw [hflows]
  exact h y hy hid edges hedges

/-- **A node that stays in a container through an edit stays exact.** -/
theorem Exact.follows (h : c.Exact node) (hwired : c.Wired)
    (hmem : node ∈ c.elements.map FlowElement.id) (hc : c.Follows change c') : c'.Exact node := by
  cases hc with
  | same => exact h
  | inner step f => exact h.mapContainer step f
  | edited edit =>
    cases edit with
    | inserted _ run =>
      refine h.insert hwired run fun hid => ?_
      exact absurd (hid ▸ hmem) (not_mem_of_find?_eq_none (insert_cases run).1)
    | removed run => exact h.remove? hwired run
    | extended laneSet => exact h

/-! ## Assemblies -/

theorem map_id_insertAll {es : List FlowElement} (hins : c.insertAll es = .ok c') :
    c'.elements.map FlowElement.id = c.elements.map FlowElement.id ++ es.map FlowElement.id := by
  induction es generalizing c with
  | nil =>
    cases hins
    rw [List.map_nil, List.append_nil]
  | cons e es ih =>
    rw [insertAll] at hins
    split at hins
    · cases hins
    · rename_i d hd
      rw [ih hins, map_id_insert hd, List.map_cons, List.append_assoc, List.singleton_append]

theorem Exact.insertAll {es : List FlowElement} (h : c.Exact node) (hwired : c.Wired)
    (hins : c.insertAll es = .ok c')
    (hbare : ∀ e ∈ es, e.id = node → ∀ edges, e.edges? = some edges → edges = .none) :
    c'.Exact node := by
  induction es generalizing c with
  | nil =>
    cases hins
    exact h
  | cons e es ih =>
    rw [Container.insertAll] at hins
    split at hins
    · cases hins
    · rename_i d hd
      obtain ⟨he, hes⟩ := List.forall_mem_cons.mp hbare
      exact ih (h.insert hwired hd he) (hwired.insert hd) hins hes

/-- A node that is assembled with no flows listed lists those that touch it. -/
theorem exact_of_assemble {es : List FlowElement} {laneSets : List LaneSet}
    (hrun : assemble es laneSets = .ok c) (he : e ∈ es) (hbare : e.edges? = some .none) :
    e.id ∈ c.elements.map FlowElement.id ∧ c.Exact e.id := by
  have hids : c.elements.map FlowElement.id = es.map FlowElement.id := map_id_insertAll hrun
  have hnd : (es.map FlowElement.id).Nodup := hids ▸ (wired_of_assemble hrun).nodup
  refine ⟨hids ▸ List.mem_map_of_mem he, ?_⟩
  refine Exact.insertAll (c := ⟨[], laneSets⟩) nofun (wired_nil laneSets) hrun ?_
  intro x hx hid edges hedges
  rw [List.inj_on_of_nodup_map hnd hx he hid, hbare] at hedges
  cases hedges
  rfl

/-- The node was put into the container with no flows listed and has not been taken out since: it was
there when the container was assembled or came in later, and stood in what became of the container
after each edit. -/
inductive Stayed (node : Id) : Container → Prop where
  | assembled {es : List FlowElement} {laneSets : List LaneSet} {k : Container} {e : FlowElement}
    (run : assemble es laneSets = .ok k) (mem : e ∈ es) (id : e.id = node)
    (bare : e.edges? = some .none) : Stayed node k
  | added {s t : Scope} {owner : Id} {e : FlowElement} {k : Container} (h : Reachable s)
    (run : Scope.addFlowElement owner e s = .ok node t) (contents : t.contents? owner = some k)
    (bare : e.edges? = some .none) : Stayed node k
  | after {s : Scope} {owner : Id} {k k' : Container} (h : Reachable s) (change : Change)
    (before : s.contents? owner = some k) (stayed : Stayed node k)
    (contents : (change.after s).contents? owner = some k')
    (stays : node ∈ k'.elements.map FlowElement.id) : Stayed node k'

end Container

namespace Scope

variable {s t : Scope} {owner : Id} {k : Container}

/-- What an owner in a reachable scope contains is complete. -/
theorem complete_of_contents? (h : Reachable s) (hk : s.contents? owner = some k) : k.Complete := by
  obtain ⟨path, x, hx, -, hxk⟩ := h.agrees.contents?_eq_some_iff.mp hk
  exact h.complete.containerAt? (h.agrees.containerAt?_eq hx hxk)

/-- An element that was added was inserted into what its owner contained. -/
theorem exists_insert_of_addFlowElement (h : s.Agrees) {e : FlowElement} {id : Id}
    (hrun : addFlowElement owner e s = .ok id t) (hk : t.contents? owner = some k) :
    id = e.id ∧ ∃ before, s.contents? owner = some before ∧ before.insert e = .ok k := by
  have ht := h.of_addFlowElement hrun
  obtain ⟨rfl, path, x, c, c', registry, hx, hid, hxc, hins, -, rfl⟩ :=
    (addFlowElement_eq_ok_iff h).mp hrun
  refine ⟨rfl, c, h.contents?_eq_some_iff.mpr ⟨path, x, hx, hid, hxc⟩, ?_⟩
  have hat := containerAt?_replaceContainer c' (h.containerAt?_eq hx hxc)
  obtain ⟨y, hy, hyc⟩ := exists_of_containerAt? (s := { s.replaceContainer path c' with registry }) hat
  have hyid : y.id = owner := by
    have hlast := hx.getLast?
    rw [hy.getLast?, Option.some.injEq, hid] at hlast
    exact hlast
  rw [ht.contents?_eq_some_iff.mpr ⟨path, y, hy, hyid, hyc⟩, Option.some.injEq] at hk
  rw [hins, hk]

end Scope

/-- **A node that came with no flows listed and stayed lists exactly the flows that touch it.** -/
theorem Container.Stayed.exact {node : Id} {k : Container} (h : k.Stayed node) :
    node ∈ k.elements.map FlowElement.id ∧ k.Exact node := by
  induction h with
  | @assembled es laneSets k e run mem id bare =>
    subst id
    exact exact_of_assemble run mem bare
  | @added s t owner e k h run contents bare =>
    obtain ⟨rfl, before, hbefore, hins⟩ :=
      Scope.exists_insert_of_addFlowElement h.agrees run contents
    have hwired := (Scope.complete_of_contents? h hbefore).wired
    constructor
    · rw [map_id_insert hins]
      exact List.mem_append_right _ (List.mem_singleton_self _)
    · -- before it was added there was no element of that identifier
      have hnone := not_mem_of_find?_eq_none (insert_cases hins).1
      have hexact : before.Exact e.id := fun x hx hid =>
        absurd (hid ▸ List.mem_map_of_mem hx) hnone
      refine hexact.insert hwired hins fun _ edges hedges => ?_
      rw [bare] at hedges
      cases hedges
      rfl
  | @after s owner k k' h change before stayed contents stays ih =>
    have hwired := (Scope.complete_of_contents? h before).wired
    have hfollows := change.follows h.agrees h.complete before contents
    exact ⟨stays, ih.2.follows hwired ih.1 hfollows⟩

/-- **The flows listed at nodes, after any run of edits.** Every flow of a container is listed at the
nodes of the container that it touches. A node that came into the container with no flows listed
and has stayed there lists exactly these flows, in the order of the container and each once. -/
theorem Reachable.edges_listed {s : Scope} (h : Reachable s) {o : Option Id} {x : Element} {k : Container}
    (hx : ⟨o, x⟩ ∈ s.placed) (hk : x.container? = some k) {e : FlowElement} (he : e ∈ k.elements)
    {edges : Edges} (hedges : e.edges? = some edges) :
    (∀ f ∈ k.sequenceFlows, (f.source.id = e.id → ⟨f.id⟩ ∈ edges.outgoing) ∧
        (f.target.id = e.id → ⟨f.id⟩ ∈ edges.incoming)) ∧
      (k.Stayed e.id →
        edges.outgoing = (k.sequenceFlows.filter (·.source.id = e.id)).map (fun f => ⟨f.id⟩) ∧
        edges.incoming = (k.sequenceFlows.filter (·.target.id = e.id)).map (fun f => ⟨f.id⟩) ∧
        edges.outgoing.Nodup ∧ edges.incoming.Nodup) := by
  obtain ⟨path, hpath⟩ := Scope.exists_ownerPath hx
  have hwired := (h.complete.containerAt? (h.agrees.containerAt?_eq hpath hk)).wired
  refine ⟨fun f hf => FlowElement.attach_eq_self_iff.mp (hwired.listed f hf e he) edges hedges, ?_⟩
  intro hstayed
  have hexact := hstayed.exact.2 e he rfl edges hedges
  obtain ⟨hincoming, houtgoing⟩ := Edges.nodup_touching e.id hwired.nodup_flows
  rw [hexact]
  exact ⟨rfl, rfl, houtgoing, hincoming⟩

/-- The node is still in what the owner contains after one more edit. -/
theorem Container.Stayed.next {s : Scope} (h : Reachable s) (change : Change) {owner node : Id}
    (stayed : ∃ k, s.contents? owner = some k ∧ k.Stayed node)
    (stays : (((change.after s).contents? owner).bind (·.find? node)).isSome = true) :
    ∃ k, (change.after s).contents? owner = some k ∧ k.Stayed node := by
  obtain ⟨k, hk, hstayed⟩ := stayed
  obtain ⟨e, he⟩ := Option.isSome_iff_exists.mp stays
  obtain ⟨k', hk', hfind⟩ := Option.bind_eq_some_iff.mp he
  have hid : e.id = node := by simpa using List.find?_some hfind
  refine ⟨k', hk', .after h change hk hstayed hk' ?_⟩
  exact hid ▸ List.mem_map_of_mem (List.mem_of_find?_eq_some hfind)

namespace Scope

/-- A process. -/
def processed : Scope := (Change.addRoot (.process (.bare ⟨"p"⟩))).after (fresh ⟨"Defs"⟩ "urn:t")

/-- Adds a task to the process. -/
def addTask : Change := .addFlowElement ⟨"p"⟩ (.task (.bare ⟨"a"⟩) .plain)

/-- Adds a flow to the process. -/
def addFlow (source target : Id) : Change :=
  .addFlowElement ⟨"p"⟩ (.sequenceFlow ⟨⟨.bare ⟨"f"⟩, none, []⟩, ⟨source⟩, ⟨target⟩, none, none⟩)

/-- The process after a flow was added, taken out and added again with other ends. -/
def rewired : Scope :=
  (addFlow ⟨"b"⟩ ⟨"a"⟩).after <| (Change.removeFlowElement ⟨"f"⟩).after <|
    (addFlow ⟨"a"⟩ ⟨"a"⟩).after <| addTask.after processed

end Scope

open Scope in
/-- The task lists the flow that is there now, where it ends. -/
theorem Reachable.edges_listed_rewired : ∃ k e edges, rewired.contents? ⟨"p"⟩ = some k ∧
    k.sequenceFlows.length = 1 ∧ e ∈ k.elements ∧ e.edges? = some edges ∧
    edges.incoming = (k.sequenceFlows.filter (·.target.id = e.id)).map (fun f => ⟨f.id⟩) ∧
    edges.outgoing = (k.sequenceFlows.filter (·.source.id = e.id)).map (fun f => ⟨f.id⟩) := by
  have h₀ : Reachable processed := .after _ ⟨[], [], nofun, rfl⟩ nofun (.fresh _ _)
  have h₁ : Reachable (addTask.after processed) := .after _ (.task _ _) nofun h₀
  have h₂ := h₁.after (addFlow ⟨"a"⟩ ⟨"a"⟩) (.sequenceFlow _) nofun
  have h₃ := h₂.after (.removeFlowElement ⟨"f"⟩) trivial nofun
  have h₄ : Reachable rewired := h₃.after (addFlow ⟨"b"⟩ ⟨"a"⟩) (.sequenceFlow _) nofun
  have hadded : ∃ k, (addTask.after processed).contents? ⟨"p"⟩ = some k ∧ k.Stayed ⟨"a"⟩ := by
    have hrun : addFlowElement ⟨"p"⟩ (.task (.bare ⟨"a"⟩) .plain) processed =
        .ok ⟨"a"⟩ (addTask.after processed) := rfl
    obtain ⟨k, hk⟩ := Option.isSome_iff_exists.mp
      (show ((addTask.after processed).contents? ⟨"p"⟩).isSome = true by decide +kernel)
    exact ⟨k, hk, .added h₀ hrun hk rfl⟩
  have hflow := Container.Stayed.next h₁ (addFlow ⟨"a"⟩ ⟨"a"⟩) hadded (by decide +kernel)
  have hremoved := Container.Stayed.next h₂ (.removeFlowElement ⟨"f"⟩) hflow (by decide +kernel)
  obtain ⟨k, hk, hstayed⟩ :=
    Container.Stayed.next h₃ (addFlow ⟨"b"⟩ ⟨"a"⟩) hremoved (by decide +kernel)
  have hlength : (rewired.contents? ⟨"p"⟩).map (·.sequenceFlows.length) = some 1 := by
    decide +kernel
  have hedges : (((rewired.contents? ⟨"p"⟩).bind (·.find? ⟨"a"⟩)).bind FlowElement.edges?).isSome =
    true := by decide +kernel
  rw [show rewired.contents? ⟨"p"⟩ = some k from hk] at hlength hedges
  obtain ⟨edges, hedges⟩ := Option.isSome_iff_exists.mp hedges
  obtain ⟨e, he, hedges⟩ := Option.bind_eq_some_iff.mp hedges
  have hmem := List.mem_of_find?_eq_some he
  have hid : e.id = ⟨"a"⟩ := by simpa using List.find?_some he
  obtain ⟨path, x, hpath, -, hx⟩ := h₄.agrees.contents?_eq_some_iff.mp hk
  obtain ⟨o, ho⟩ := hpath.mem_placed
  obtain ⟨houtgoing, hincoming, -, -⟩ := (Reachable.edges_listed h₄ ho hx hmem hedges).2 (hid ▸ hstayed)
  exact ⟨k, e, edges, hk, Option.some.inj hlength, hmem, hedges, hincoming, houtgoing⟩

end BpmnModel
