import BpmnModel.Proofs.CleanFlows
import BpmnModel.Proofs.Completeness
import BpmnModel.Proofs.RoundTrip

/-!
# Listed flows and real flows

* `Scope.mem_sequenceFlows_of_touches` — where every identifier is the scope's own and the report is
  clean, a flow of the scope that touches a node belongs to the container of the node.
* `Scope.edges_real` — then the flows listed at a node are the flows of its container that end or
  start there.
-/

namespace BpmnModel

namespace Scope

variable {s : Scope}

/-- A flow element has an owner, which contains it. -/
theorem exists_container_of_mem_placed {o : Option Id} {e : FlowElement}
    (h : ⟨o, .flowElement e⟩ ∈ s.placed) :
    ∃ o' x c, ⟨o', x⟩ ∈ s.placed ∧ x.container? = some c ∧ e ∈ c.elements := by
  cases o with
  | none =>
    have htop := topLevel_of_mem_placed h
    simp [topLevel] at htop
  | some id =>
    obtain ⟨o', x, hx, -, hchild⟩ := owner_of_mem_placed h
    obtain ⟨c, hc, he⟩ := Element.mem_container_of_mem_children hchild
    exact ⟨o', x, c, hx, hc, he⟩

/-- A sequence flow that is found by its identifier stands in the ownership tree. -/
theorem exists_of_sequenceFlow? (h : s.Agrees) {id : Id} {f : SequenceFlow}
    (hf : s.sequenceFlow? id = some f) :
    f.id = id ∧ ∃ o, ⟨o, .flowElement (.sequenceFlow f)⟩ ∈ s.placed := by
  obtain ⟨e, he, hflow⟩ := Option.bind_eq_some_iff.mp hf
  obtain ⟨x, hx, hxe⟩ := Option.bind_eq_some_iff.mp he
  cases x with
  | flowElement y =>
    cases hxe
    cases e with
    | sequenceFlow g =>
      cases hflow
      exact (h.get?_iff _ _).mp hx
    | _ => cases hflow
  | _ => cases hxe

/-- No element stands in two containers. -/
theorem container_unique (h : s.Agrees) {o o' : Option Id} {x y : Element} {c k : Container}
    (hx : ⟨o, x⟩ ∈ s.placed) (hc : x.container? = some c) (hy : ⟨o', y⟩ ∈ s.placed)
    (hk : y.container? = some k) {e n : FlowElement} (he : e ∈ c.elements) (hn : n ∈ k.elements)
    (hid : n.id = e.id) : k = c := by
  have owned {o : Option Id} {x : Element} {c : Container} {e : FlowElement}
      (hx : ⟨o, x⟩ ∈ s.placed) (hc : x.container? = some c) (he : e ∈ c.elements) :
      ⟨some x.id, .flowElement e⟩ ∈ s.placed :=
    child_mem_placed hx (Element.flowElement_mem_children hc he)
  have hplaced := h.records.eq_of_id (owned hy hk hn) (owned hx hc he) hid
  have howner : y.id = x.id := Option.some.inj (congrArg Placed.owner hplaced)
  rw [h.eq_of_id hy hx howner, hc, Option.some.injEq] at hk
  exact hk.symm

section Clean

variable (h : Reachable s) (clean : (s.validate default).isClean = true)
  (hunbound : ∀ i ∈ s.imports, i.scope? = none) {o : Option Id} {x : Element} {c : Container}
  (hx : ⟨o, x⟩ ∈ s.placed) (hc : x.container? = some c) {e : FlowElement} (he : e ∈ c.elements)

include h clean hunbound hx hc he

/-- A flow of the scope that touches a node belongs to the container of the node. -/
theorem mem_sequenceFlows_of_touches {id : Id} {f : SequenceFlow} (hf : s.sequenceFlow? id = some f)
    {side : EdgeSide} (hside : side.of f = e.id) : f ∈ c.sequenceFlows ∧ f.id = id := by
  obtain ⟨hid, o', hplaced⟩ := exists_of_sequenceFlow? h.agrees hf
  -- the flow belongs to some container, whose elements its ends are
  obtain ⟨o'', z, k, hz, hk, hmem⟩ := exists_container_of_mem_placed hplaced
  have hfk : f ∈ k.sequenceFlows := Container.mem_sequenceFlows.mpr ⟨_, hmem, rfl⟩
  have hend : side.of f ∈ [f.source.id, f.target.id] := by
    cases side <;> simp [EdgeSide.of]
  obtain ⟨m, hm, hmid, -⟩ := (ends_of_clean h clean hz hk hfk _ hend).resolve_left
    (not_onlyImported hunbound _)
  -- one of these ends is the node, so the container is that of the node
  have hkc := container_unique h.agrees hx hc hz hk he hm (hmid.trans hside)
  exact ⟨hkc ▸ hfk, hid⟩

/-- The flows listed on a side of a node are those of its container that are there. -/
theorem listed_iff_of_clean {edges : Edges} (hedges : e.edges? = some edges) (side : EdgeSide)
    (id : Id) :
    id ∈ Ref.ids (side.listed edges) ↔ ∃ f ∈ c.sequenceFlows, f.id = id ∧ side.of f = e.id := by
  constructor
  · intro hid
    obtain ⟨r, hr, rfl⟩ := List.mem_map.mp hid
    obtain ⟨f, hf, hside⟩ := (listed_of_clean h clean hx hc he hedges side r hr).resolve_left
      (not_onlyImported hunbound _)
    obtain ⟨hmem, hfid⟩ := mem_sequenceFlows_of_touches h clean hunbound hx hc he hf hside
    exact ⟨f, hmem, hfid, hside⟩
  · rintro ⟨f, hf, rfl, hside⟩
    have hlists :=
      FlowElement.attach_eq_self_iff.mp ((h.wired hx hc).listed f hf e he) edges hedges
    cases side with
    | incoming => exact List.mem_map_of_mem (f := Ref.id) (hlists.2 hside)
    | outgoing => exact List.mem_map_of_mem (f := Ref.id) (hlists.1 hside)

end Clean

/-- **Listed flows are real flows.** Where no import is bound and the report is clean, in every
container at any depth the flows listed at a node as incoming are the flows of the container that
end there, those listed as outgoing are the ones that start there, and a default flow is among
these. -/
theorem edges_real (origin : Reachable s ∨ ∃ d, ofDocument d = .ok s)
    (hunbound : ∀ i ∈ s.imports, i.scope? = none) (clean : (s.validate default).isClean = true)
    {o : Option Id} {x : Element} {c : Container} (hx : ⟨o, x⟩ ∈ s.placed)
    (hc : x.container? = some c) {e : FlowElement} (he : e ∈ c.elements) {edges : Edges}
    (hedges : e.edges? = some edges) :
    (∀ id, id ∈ Ref.ids edges.incoming ↔ ∃ f ∈ c.sequenceFlows, f.id = id ∧ f.target.id = e.id) ∧
      (∀ id, id ∈ Ref.ids edges.outgoing ↔
        ∃ f ∈ c.sequenceFlows, f.id = id ∧ f.source.id = e.id) ∧
      ∀ r, e.defaultFlow? = some r → r ∈ edges.outgoing := by
  have h : Reachable s := reachable_of_origin origin
  have hlisted := listed_iff_of_clean h clean hunbound hx hc he hedges
  refine ⟨hlisted .incoming, hlisted .outgoing, fun r hr => ?_⟩
  obtain ⟨f, hf, hsource⟩ := (defaultFlow_of_clean h clean hx hc he hr).resolve_left
    (not_onlyImported hunbound _)
  obtain ⟨hmem, hid⟩ := mem_sequenceFlows_of_touches h clean hunbound hx hc he hf
    (show EdgeSide.outgoing.of f = e.id from hsource)
  obtain ⟨q, hq, hqid⟩ := List.mem_map.mp ((hlisted .outgoing r.id).mpr ⟨f, hmem, hid, hsource⟩)
  cases q
  cases r
  cases hqid
  exact hq

/-- The task of the loop lists the flow, which ends there. -/
theorem edges_real_looping : ∃ c e edges, looping.containerAt? [⟨"p"⟩] = some c ∧ e ∈ c.elements ∧
    e.edges? = some edges ∧ Ref.ids edges.incoming = [⟨"f"⟩] ∧
    ∀ id, id ∈ Ref.ids edges.incoming ↔ ∃ f ∈ c.sequenceFlows, f.id = id ∧ f.target.id = e.id := by
  have hs : Reachable looping := withFlow_reachable (.fresh _ _) _
  have himports : looping.imports = [] := rfl
  have hedges : (looping.containerAt? [⟨"p"⟩]).bind (fun c => (c.find? ⟨"a"⟩).bind fun e =>
      e.edges?.map fun edges => Ref.ids edges.incoming) = some [⟨"f"⟩] := by decide +kernel
  obtain ⟨c, hc, hedges⟩ := Option.bind_eq_some_iff.mp hedges
  obtain ⟨e, he, hedges⟩ := Option.bind_eq_some_iff.mp hedges
  obtain ⟨edges, hedges, hincoming⟩ := Option.map_eq_some_iff.mp hedges
  have hmem := List.mem_of_find?_eq_some he
  obtain ⟨x, hpath, hx⟩ := exists_of_containerAt? hc
  obtain ⟨o, ho⟩ := hpath.mem_placed
  have hreal := edges_real (.inl hs) (by rw [himports]; exact nofun) (by decide +kernel) ho hx hmem
    hedges
  exact ⟨c, e, edges, hc, hmem, hedges, hincoming, hreal.1⟩

end Scope

end BpmnModel
