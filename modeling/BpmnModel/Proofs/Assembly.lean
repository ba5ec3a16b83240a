import BpmnModel.Proofs.EdgeOrder
import Mathlib.Data.List.Induction
import Mathlib.Data.List.Perm.Basic

/-!
# What the assembly of a container lists at its nodes

Flow elements come in one by one: a flow is listed at the nodes that are there, and a node lists the
flows that are there.  Taken together, each node lists behind what it came with all flows of the
container that touch it.

* `FlowElement.completed` — a flow element to which all flows of a list were attached.
* `Container.insert_completed`, `Container.insertAll_completed` — what one element more does, and all
  of them in turn.
* `Container.insertAll_of_repeated` — an identifier that comes twice is refused where it comes again.
* `Container.assemble_exact` — what an assembly leaves, or what it refuses.
-/

namespace BpmnModel

/-- In another order of the flows the same flows are listed. -/
theorem Edges.completed_perm (node : Id) (edges : Edges) {flows flows' : List SequenceFlow}
    (h : flows.Perm flows') :
    (edges.completed node flows).incoming.Perm (edges.completed node flows').incoming ∧
      (edges.completed node flows).outgoing.Perm (edges.completed node flows').outgoing :=
  ⟨(((h.filter _).map _).filter _).append_left _, (((h.filter _).map _).filter _).append_left _⟩

/-! ## Flow elements -/

namespace FlowElement

variable {e : FlowElement} {flows flows' : List SequenceFlow} {flow : SequenceFlow}

/-- The flow element with all of these flows attached: behind the flows that it lists it gets those
that touch it and are not listed, and nothing else changes. -/
def completed (flows : List SequenceFlow) (e : FlowElement) : FlowElement :=
  e.mapEdges (Edges.completed e.id · flows)

@[simp]
theorem id_completed (flows : List SequenceFlow) (e : FlowElement) :
    (e.completed flows).id = e.id :=
  id_mapEdges _ e

theorem attach_completed (hfresh : flow.id ∉ flows.map SequenceFlow.id) (e : FlowElement) :
    (e.completed flows).attach flow = e.completed (flows ++ [flow]) := by
  rw [completed, attach, id_mapEdges, mapEdges_mapEdges, completed]
  congr 1
  funext edges
  exact Edges.attach_completed hfresh

theorem foldl_attach_eq_completed (hnd : (flows.map SequenceFlow.id).Nodup) (e : FlowElement) :
    flows.foldl attach e = e.completed flows := by
  rw [foldl_attach_eq, completed]
  congr 1
  funext edges
  exact Edges.foldl_attach_eq_completed hnd

/-- What is listed after all flows were attached does not depend on their order. -/
theorem completed_perm (h : flows.Perm flows') {edges : Edges}
    (hedges : (e.completed flows).edges? = some edges) :
    ∃ edges', e.completed flows' = (e.completed flows).mapEdges (fun _ => edges') ∧
      edges'.incoming.Perm edges.incoming ∧ edges'.outgoing.Perm edges.outgoing := by
  rw [completed, edges?_mapEdges, Option.map_eq_some_iff] at hedges
  obtain ⟨declared, hdeclared, rfl⟩ := hedges
  obtain ⟨hincoming, houtgoing⟩ := Edges.completed_perm e.id declared h
  refine ⟨declared.completed e.id flows', ?_, hincoming.symm, houtgoing.symm⟩
  rw [completed, completed, mapEdges_mapEdges]
  cases e <;> cases hdeclared <;> rfl

end FlowElement

/-! ## Containers -/

namespace Container

variable {done rest es es' : List FlowElement} {laneSets : List LaneSet} {e : FlowElement}

/-- The sequence flows among flow elements, in order. -/
def flowsOf (es : List FlowElement) : List SequenceFlow := es.filterMap FlowElement.sequenceFlow?

/-- The container with these flow elements, all flows attached to all of them. -/
def completed (es : List FlowElement) (laneSets : List LaneSet) : Container :=
  ⟨es.map (·.completed (flowsOf es)), laneSets⟩

theorem sequenceFlows_completed (es : List FlowElement) (laneSets : List LaneSet) :
    (completed es laneSets).sequenceFlows = flowsOf es :=
  sequenceFlows_mapEdges (fun e edges => edges.completed e.id (flowsOf es)) es

theorem map_id_flowsOf_sublist (es : List FlowElement) :
    ((flowsOf es).map SequenceFlow.id).Sublist (es.map FlowElement.id) :=
  map_id_sequenceFlows_sublist ⟨es, []⟩

theorem find?_completed (laneSets : List LaneSet) (id : Id) :
    (completed es laneSets).find? id = none ↔ id ∉ es.map FlowElement.id := by
  simp [find?, completed, List.find?_eq_none]

/-- **One element more**: it comes last, and whether it is a flow or a node, it and those before it
list all flows that are there by then. -/
theorem insert_completed (hnd : ((done ++ [e]).map FlowElement.id).Nodup) :
    (completed done laneSets).insert e = .ok (completed (done ++ [e]) laneSets) := by
  rw [List.map_append, List.map_singleton, List.nodup_append] at hnd
  obtain ⟨hdone, -, hdisj⟩ := hnd
  have hnew : e.id ∉ done.map FlowElement.id := fun hm => hdisj _ hm _ (List.mem_singleton_self _) rfl
  have hflows : ((flowsOf done).map SequenceFlow.id).Nodup := (map_id_flowsOf_sublist done).nodup hdone
  have hfind := (find?_completed laneSets e.id).mpr hnew
  cases hflow : e.sequenceFlow? with
  | some flow =>
    obtain rfl : e = .sequenceFlow flow := by
      cases e <;> cases hflow
      rfl
    have hfresh : flow.id ∉ (flowsOf done).map SequenceFlow.id := fun hm =>
      hnew ((map_id_flowsOf_sublist done).subset hm)
    have hmap : (completed done laneSets).elements.map (·.attach flow) =
        done.map (·.completed (flowsOf done ++ [flow])) := by
      rw [completed, List.map_map]
      exact List.map_congr_left fun x _ => x.attach_completed hfresh
    have hall : flowsOf (done ++ [.sequenceFlow flow]) = flowsOf done ++ [flow] :=
      List.filterMap_append
    rw [insert_flow hfind, hmap]
    unfold completed
    rw [hall, List.map_append]
    rfl
  | none =>
    have hall : flowsOf (done ++ [e]) = flowsOf done := by
      rw [flowsOf, List.filterMap_append, List.filterMap_cons_none hflow]
      exact List.append_nil _
    rw [insert_node hfind hflow, sequenceFlows_completed,
      FlowElement.foldl_attach_eq_completed hflows]
    unfold completed
    rw [hall, List.map_append]
    rfl

theorem insertAll_completed (hnd : ((done ++ rest).map FlowElement.id).Nodup) :
    (completed done laneSets).insertAll rest = .ok (completed (done ++ rest) laneSets) := by
  induction rest generalizing done with
  | nil => rw [List.append_nil]; rfl
  | cons e rest ih =>
    rw [List.append_cons] at hnd ⊢
    have hfirst : ((done ++ [e]).map FlowElement.id).Nodup :=
      ((List.sublist_append_left _ _).map _).nodup hnd
    rw [insertAll, insert_completed hfirst]
    exact ih hnd

theorem assemble_completed (laneSets : List LaneSet) (hnd : (es.map FlowElement.id).Nodup) :
    assemble es laneSets = .ok (completed es laneSets) := by
  have hall : (([] ++ es).map FlowElement.id).Nodup := hnd
  exact insertAll_completed hall

theorem insertAll_append (c : Container) (es es' : List FlowElement) :
    c.insertAll (es ++ es') = c.insertAll es >>= (·.insertAll es') := by
  induction es generalizing c with
  | nil => rfl
  | cons e es ih =>
    rw [List.cons_append, insertAll, insertAll]
    cases c.insert e with
    | error refusal => rfl
    | ok d => exact ih d

/-- Where names repeat there is a first that stands earlier. -/
theorem exists_repeated {α : Type} {name : α → Id} {xs : List α} (h : ¬ (xs.map name).Nodup) :
    ∃ before x after, xs = before ++ x :: after ∧ (before.map name).Nodup ∧
      name x ∈ before.map name := by
  induction xs using List.reverseRecOn with
  | nil => exact absurd List.nodup_nil h
  | append_singleton xs x ih =>
    by_cases hnd : (xs.map name).Nodup
    · refine ⟨xs, x, [], rfl, hnd, ?_⟩
      by_contra hx
      rw [List.map_append, List.map_singleton] at h
      exact h (List.nodup_append.mpr ⟨hnd, List.nodup_singleton _, by simpa using hx⟩)
    · obtain ⟨before, y, after, rfl, hbefore, hy⟩ := ih hnd
      exact ⟨before, y, after ++ [x], by simp, hbefore, hy⟩

theorem insertAll_of_repeated {before after : List FlowElement}
    (hbefore : (before.map FlowElement.id).Nodup) (he : e.id ∈ before.map FlowElement.id) :
    (completed [] laneSets).insertAll (before ++ e :: after) = .error (.duplicateId e.id) := by
  have hrun : (completed [] laneSets).insertAll before = .ok (completed before laneSets) :=
    insertAll_completed hbefore
  have hclash : (completed before laneSets).insert e = .error (.duplicateId e.id) := by
    obtain ⟨x, hx⟩ := Option.ne_none_iff_exists'.mp
      (mt (find?_completed laneSets e.id).mp (not_not_intro he))
    unfold insert
    rw [hx]
  rw [insertAll_append, hrun]
  show (completed before laneSets).insertAll (e :: after) = _
  rw [insertAll, hclash]

/-- **What an assembly leaves.** If the identifiers are distinct it succeeds and keeps the order of
the elements; each node lists, behind what it came with, the flows of the container that touch it and
are not listed, in their order; all else stays as it came, flows altogether. In another order of the
elements the nodes list the same flows. If an identifier comes twice, the first element whose
identifier came before is refused. -/
theorem assemble_exact (es : List FlowElement) (laneSets : List LaneSet) :
    ((es.map FlowElement.id).Nodup ∧
      ∃ c, assemble es laneSets = .ok c ∧
        c.elements = es.map (fun e => e.mapEdges fun edges =>
          { incoming := edges.incoming ++
              ((c.sequenceFlows.filter (·.target.id = e.id)).map fun f => ⟨f.id⟩).filter
                (· ∉ edges.incoming)
            outgoing := edges.outgoing ++
              ((c.sequenceFlows.filter (·.source.id = e.id)).map fun f => ⟨f.id⟩).filter
                (· ∉ edges.outgoing) }) ∧
        c.sequenceFlows = es.filterMap FlowElement.sequenceFlow? ∧ c.laneSets = laneSets ∧
        ∀ es', es.Perm es' → ∃ c', assemble es' laneSets = .ok c' ∧
          ∀ x ∈ c.elements, ∀ edges, x.edges? = some edges →
            ∃ edges', x.mapEdges (fun _ => edges') ∈ c'.elements ∧
              edges'.incoming.Perm edges.incoming ∧ edges'.outgoing.Perm edges.outgoing) ∨
      ∃ before e after, es = before ++ e :: after ∧ (before.map FlowElement.id).Nodup ∧
        e.id ∈ before.map FlowElement.id ∧
        assemble es laneSets = .error (.duplicateId e.id) := by
  by_cases hnd : (es.map FlowElement.id).Nodup
  · refine .inl ⟨hnd, completed es laneSets, assemble_completed laneSets hnd, ?_,
      sequenceFlows_completed es laneSets, rfl, ?_⟩
    · simp only [sequenceFlows_completed, decide_not, ← List.contains_eq_mem]
      rfl
    · intro es' hperm
      refine ⟨completed es' laneSets,
        assemble_completed laneSets ((hperm.map FlowElement.id).nodup_iff.mp hnd), ?_⟩
      intro x hx edges hedges
      obtain ⟨e, he, rfl⟩ := List.mem_map.mp hx
      have hflows : (flowsOf es).Perm (flowsOf es') := hperm.filterMap _
      obtain ⟨edges', heq, hincoming, houtgoing⟩ := FlowElement.completed_perm hflows hedges
      refine ⟨edges', ?_, hincoming, houtgoing⟩
      rw [← heq]
      exact List.mem_map_of_mem (hperm.mem_iff.mp he)
  · obtain ⟨before, e, after, rfl, hbefore, he⟩ := exists_repeated hnd
    exact .inr ⟨before, e, after, rfl, hbefore, he, insertAll_of_repeated hbefore he⟩

/-- A task that came with `g` twice, a flow before it and a loop behind it, and the same in another
order. -/
theorem assemble_exact_reordered :
    let task : FlowElement := .task { Activity.bare ⟨"a"⟩ with
      edges := ⟨[], [⟨⟨"g"⟩⟩, ⟨⟨"g"⟩⟩]⟩ } .plain
    let flow (id target : Id) : FlowElement :=
      .sequenceFlow ⟨⟨.bare id, none, []⟩, ⟨⟨"a"⟩⟩, ⟨target⟩, none, none⟩
    ∃ c c', assemble [flow ⟨"f"⟩ ⟨"b"⟩, task, flow ⟨"h"⟩ ⟨"a"⟩] [] = .ok c ∧
      assemble [task, flow ⟨"h"⟩ ⟨"a"⟩, flow ⟨"f"⟩ ⟨"b"⟩] [] = .ok c' ∧
      ∃ x ∈ c.elements, ∃ edges edges',
        x.edges? = some edges ∧ edges.incoming = [⟨⟨"h"⟩⟩] ∧
        edges.outgoing = [⟨⟨"g"⟩⟩, ⟨⟨"g"⟩⟩, ⟨⟨"f"⟩⟩, ⟨⟨"h"⟩⟩] ∧
        x.mapEdges (fun _ => edges') ∈ c'.elements ∧
        edges'.incoming.Perm edges.incoming ∧ edges'.outgoing.Perm edges.outgoing := by
  intro task flow
  rcases assemble_exact [flow ⟨"f"⟩ ⟨"b"⟩, task, flow ⟨"h"⟩ ⟨"a"⟩] [] with
    ⟨-, c, hc, helements, hflows, -, hreordered⟩ | ⟨-, e, -, -, -, -, hrefused⟩
  · obtain ⟨c', hc', hsame⟩ := hreordered _
      (List.perm_append_singleton (flow ⟨"f"⟩ ⟨"b"⟩) [task, flow ⟨"h"⟩ ⟨"a"⟩]).symm
    rw [hflows] at helements
    have hx : task.mapEdges (fun _ => ⟨[⟨⟨"h"⟩⟩], [⟨⟨"g"⟩⟩, ⟨⟨"g"⟩⟩, ⟨⟨"f"⟩⟩, ⟨⟨"h"⟩⟩]⟩) ∈
        c.elements := by
      rw [helements]
      exact List.mem_cons_of_mem _ List.mem_cons_self
    obtain ⟨edges', hmem, hincoming, houtgoing⟩ := hsame _ hx _ rfl
    exact ⟨c, c', hc, hc', _, hx, _, edges', rfl, rfl, rfl, hmem, hincoming, houtgoing⟩
  · cases hrefused

end Container

end BpmnModel
