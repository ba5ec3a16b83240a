import BpmnModel.Proofs.Resolution
import BpmnModel.Proofs.Walk

/-!
# Sequence flows under a clean report

* `Scope.FlowsFit` — the flows of a container connect its nodes, and what its nodes say about flows
  is so; identifiers may be exempt.
* `Scope.OnlyImported` — an identifier that a scope knows from its imports alone.
* `Scope.flows_fit_of_clean` — a clean report vouches for all identifiers that are not of this sort.
* `Scope.flows_misfit_crossing` — an end that is known from an import alone escapes a validation.
-/

namespace BpmnModel

/-- A flow node with this identifier stands in the container itself. -/
def Container.HasNode (c : Container) (id : Id) : Prop :=
  ∃ e ∈ c.elements, e.id = id ∧ e.kind.has .flowNode = true

/-- The flows that are listed on a side of a flow node. -/
def EdgeSide.listed (side : EdgeSide) (edges : Edges) : List (RefTo .sequenceFlow) :=
  match side with
  | incoming => edges.incoming
  | outgoing => edges.outgoing

/-! ## References of flow elements -/

namespace FlowElement

variable {e : FlowElement} {edges : Edges} {r : RefTo .sequenceFlow}

theorem edges_references_subset (h : e.edges? = some edges) : edges.references ⊆ e.references := by
  intro ref href
  cases e with
  | sequenceFlow f => cases h
  | _ =>
    cases h
    simp [references, Activity.references, Gateway.references, Event.references, href]

theorem listed_mem_references (h : e.edges? = some edges) {side : EdgeSide}
    (hr : r ∈ side.listed edges) : r.inField side.name ∈ e.references := by
  refine edges_references_subset h ?_
  cases side with
  | incoming => exact List.mem_append_left _ (List.mem_map_of_mem hr)
  | outgoing => exact List.mem_append_right _ (List.mem_map_of_mem hr)

theorem defaultFlow_mem_references (h : e.defaultFlow? = some r) :
    r.inField "default" ∈ e.references := by
  cases e with
  | event x => cases h
  | sequenceFlow f => cases h
  | _ =>
    simp only [defaultFlow?] at h
    simp [references, Activity.references, Gateway.references, h, Ref.optionInField]

end FlowElement

theorem Element.eq_sequenceFlow_of_kind {e : Element} (h : e.kind = .sequenceFlow) :
    ∃ f, e = .flowElement (.sequenceFlow f) := by
  obtain ⟨f, rfl⟩ := eq_flowElement_of_has (by rw [h]; rfl)
  have hnode := (flowElement f).kind_has .flowNode
  rw [h] at hnode
  cases f with
  | sequenceFlow f => exact ⟨f, rfl⟩
  | _ => cases hnode

namespace Scope

variable {s : Scope}

/-! ## What the checks rule out -/

/-- The flows of a container connect flow nodes that it contains, and the flows that its nodes name
start or end as they say. Nothing is said of exempt identifiers. -/
structure FlowsFit (s : Scope) (exempt : Id → Prop) (c : Container) : Prop where
  ends : ∀ f ∈ c.sequenceFlows, ∀ id ∈ [f.source.id, f.target.id], exempt id ∨ c.HasNode id
  incoming : ∀ e ∈ c.elements, ∀ edges, e.edges? = some edges → ∀ r ∈ edges.incoming,
    exempt r.id ∨ ∃ f, s.sequenceFlow? r.id = some f ∧ f.target.id = e.id
  outgoing : ∀ e ∈ c.elements, ∀ edges, e.edges? = some edges → ∀ r ∈ edges.outgoing,
    exempt r.id ∨ ∃ f, s.sequenceFlow? r.id = some f ∧ f.source.id = e.id
  defaultFlow : ∀ e ∈ c.elements, ∀ r, e.defaultFlow? = some r →
    exempt r.id ∨ ∃ f, s.sequenceFlow? r.id = some f ∧ f.source.id = e.id

/-- The identifier is not registered here but behind a bound import. -/
def OnlyImported (s : Scope) (id : Id) : Prop :=
  s.registry.contains id = false ∧ ∃ t ∈ s.searched, t.registry.contains id = true

/-- What resolves is known from imports alone or stands in the scope itself. -/
theorem get?_of_resolve (h : Reachable s) {id : Id} {r : Requirement} {x : Element}
    (hx : s.resolve id r = .ok x) :
    s.OnlyImported id ∨ (s.get? id = some x ∧ r.isMetBy x.kind = true) := by
  obtain ⟨hlookup, hmet⟩ := resolve_eq_ok_iff.mp hx
  obtain ⟨t, hfound⟩ := (lookup_eq_some_iff h).mp hlookup
  cases hc : s.registry.contains id with
  | false =>
    have ht : t.registry.contains id = true := by simpa using List.find?_some hfound.first
    exact .inl ⟨hc, t, List.mem_of_find?_eq_some hfound.first, ht⟩
  | true =>
    obtain ⟨e, hlocal⟩ := FirstFound.of_contains h.agrees hc
    have he := (lookup_eq_some_iff h).mpr ⟨s, hlocal⟩
    rw [hlookup, Option.some.injEq] at he
    subst he
    obtain ⟨o, -, hmem⟩ := hlocal.registered
    exact .inr ⟨(h.agrees.get?_iff id x).mpr ⟨hlocal.id, o, hmem⟩, hmet⟩

theorem checkReferences_eq_nil_iff {e : Element} :
    s.checkReferences e = [] ↔ ∀ ref ∈ e.references, ∃ x, s.resolveReference ref = .ok x := by
  unfold checkReferences
  rw [List.filterMap_eq_nil_iff]
  refine forall₂_congr fun ref _ => ?_
  cases s.resolveReference ref with
  | ok x => simp
  | error refusal => cases refusal <;> simp

theorem checkEdge_eq_none_iff {node flow : Id} {side : EdgeSide} :
    s.checkEdge node side flow = none ↔
      ∀ f, s.sequenceFlow? flow = some f → side.of f = node := by
  unfold checkEdge
  cases s.sequenceFlow? flow with
  | none => simp
  | some f =>
    simp only [Option.some.injEq, forall_eq']
    split <;> simp [*]

theorem checkDefaultFlow_eq_nil_iff {node : Id} {flow : RefTo .sequenceFlow} :
    s.checkDefaultFlow node (some flow) = [] ↔
      ∀ f, s.sequenceFlow? flow.id = some f → f.source.id = node := by
  unfold checkDefaultFlow
  simp only
  cases s.sequenceFlow? flow.id with
  | none => simp
  | some f =>
    simp only [Option.some.injEq, forall_eq']
    split <;> simp [*]

theorem checkEnd_eq_nil_iff {f : SequenceFlow} {c : Container} {role : String} {theEnd : Id} :
    s.checkEnd f c role theEnd = [] ↔
      (s.registry.contains theEnd = true → (c.find? theEnd).isSome = true) := by
  unfold checkEnd
  rw [Registry.contains]
  cases c.find? theEnd <;> cases s.registry.slot? theEnd <;> simp

/-! ## Clean reports -/

section Clean

variable (h : Reachable s) (clean : (s.validate default).isClean = true) {o : Option Id}
  {x : Element} {c : Container} (hx : ⟨o, x⟩ ∈ s.placed) (hc : x.container? = some c)

include clean hx in
/-- **Under a clean report every reference resolves.** -/
theorem resolves_of_clean {ref : Reference} (href : ref ∈ x.references) :
    ∃ y, s.resolve ref.id ref.requires = .ok y := by
  obtain ⟨before, hfound⟩ := findings_of_clean clean (references_mem_visits hx)
  exact checkReferences_eq_nil_iff.mp (List.append_eq_nil_iff.mp hfound).2 ref href

include clean hx hc in
theorem checkFlowElement_of_clean {e : FlowElement} (he : e ∈ c.elements) :
    ∃ executable, s.checkFlowElement default executable e c = [] := by
  obtain ⟨before, hfound⟩ := findings_of_clean clean (flowElement_mem_visits hx hc he)
  exact ⟨before.executable, (List.append_eq_nil_iff.mp hfound).2⟩

include h clean hx hc in
/-- A sequence flow that is named at an element and stands in the scope itself. -/
theorem sequenceFlow?_of_clean {e : FlowElement} (he : e ∈ c.elements) {r : RefTo .sequenceFlow}
    {field : String} (href : r.inField field ∈ e.references) :
    s.OnlyImported r.id ∨ ∃ f, s.sequenceFlow? r.id = some f := by
  have hplaced := child_mem_placed hx (Element.flowElement_mem_children hc he)
  obtain ⟨y, hy⟩ := resolves_of_clean clean hplaced href
  refine (get?_of_resolve h hy).imp_right ?_
  rintro ⟨hget, hmet⟩
  obtain ⟨f, rfl⟩ := Element.eq_sequenceFlow_of_kind (e := y)
    (by simpa [Ref.inField, Requirement.isMetBy] using hmet)
  refine ⟨f, ?_⟩
  have hget : s.get? r.id = some (.flowElement (.sequenceFlow f)) := hget
  rw [sequenceFlow?, hget]
  rfl

include h clean hx hc in
/-- An end of a flow of a container, once no check objects to it. -/
theorem hasNode_of_clean {f : SequenceFlow} (hf : f ∈ c.sequenceFlows) {theEnd : Ref .anyFlowNode}
    {field : String} (href : theEnd.inField field ∈ f.references)
    (hcheck : s.registry.contains theEnd.id = true → (c.find? theEnd.id).isSome = true) :
    s.OnlyImported theEnd.id ∨ c.HasNode theEnd.id := by
  obtain ⟨e, he, hflow⟩ := Container.mem_sequenceFlows.mp hf
  have howned {e : FlowElement} (he : e ∈ c.elements) :=
    child_mem_placed hx (Element.flowElement_mem_children hc he)
  have href : theEnd.inField field ∈ (Element.flowElement e).references := by
    cases e with
    | sequenceFlow g =>
      cases hflow
      exact href
    | _ => cases hflow
  obtain ⟨y, hy⟩ := resolves_of_clean clean (howned he) href
  refine (get?_of_resolve h hy).imp_right ?_
  rintro ⟨hget, hmet⟩
  obtain ⟨hid, o', hy⟩ := (h.agrees.get?_iff _ y).mp hget
  have hcontains : s.registry.contains theEnd.id = true :=
    (h.agrees.records.contains_iff _).mpr (List.mem_map.mpr ⟨⟨o', y⟩, hy, hid⟩)
  -- the container has an element of that identifier, and it is the one that the reference meets
  obtain ⟨n, hn⟩ := Option.isSome_iff_exists.mp (hcheck hcontains)
  have hnid : n.id = theEnd.id := by simpa using List.find?_some hn
  have hnmem := List.mem_of_find?_eq_some hn
  have hny : .flowElement n = y := h.agrees.eq_of_id (howned hnmem) hy (hnid.trans hid.symm)
  subst hny
  exact ⟨n, hnmem, hnid, hmet⟩

include h clean hx hc in
/-- **The ends of a flow are flow nodes of its container.** -/
theorem ends_of_clean {f : SequenceFlow} (hf : f ∈ c.sequenceFlows) :
    ∀ id ∈ [f.source.id, f.target.id], s.OnlyImported id ∨ c.HasNode id := by
  obtain ⟨e, he, hflow⟩ := Container.mem_sequenceFlows.mp hf
  obtain ⟨executable, hcheck⟩ := checkFlowElement_of_clean clean hx hc he
  have hcontainment : s.checkContainment f c = [] := by
    cases e with
    | sequenceFlow g =>
      cases hflow
      exact (List.append_eq_nil_iff.mp (List.append_eq_nil_iff.mp hcheck).2).1
    | _ => cases hflow
  obtain ⟨hsource, htarget⟩ := List.append_eq_nil_iff.mp hcontainment
  have hsourceRef : f.source.inField "sourceRef" ∈ f.references := by simp [SequenceFlow.references]
  have htargetRef : f.target.inField "targetRef" ∈ f.references := by simp [SequenceFlow.references]
  intro id hid
  rcases List.mem_pair.mp hid with rfl | rfl
  · exact hasNode_of_clean h clean hx hc hf hsourceRef (checkEnd_eq_nil_iff.mp hsource)
  · exact hasNode_of_clean h clean hx hc hf htargetRef (checkEnd_eq_nil_iff.mp htarget)

include h clean hx hc in
/-- **A flow that is listed on a side of a node is there on that side.** -/
theorem listed_of_clean {e : FlowElement} (he : e ∈ c.elements) {edges : Edges}
    (hedges : e.edges? = some edges) (side : EdgeSide) :
    ∀ r ∈ side.listed edges, s.OnlyImported r.id ∨
      ∃ f, s.sequenceFlow? r.id = some f ∧ side.of f = e.id := by
  intro r hr
  obtain ⟨executable, hcheck⟩ := checkFlowElement_of_clean clean hx hc he
  have hedge : s.checkEdge e.id side r.id = none := by
    have hlists : s.checkEdges e.id edges = [] := by
      have hfirst := (List.append_eq_nil_iff.mp hcheck).1
      rw [hedges] at hfirst
      exact hfirst
    obtain ⟨hincoming, houtgoing⟩ := List.append_eq_nil_iff.mp hlists
    cases side with
    | incoming => exact List.filterMap_eq_nil_iff.mp hincoming r.id (List.mem_map_of_mem hr)
    | outgoing => exact List.filterMap_eq_nil_iff.mp houtgoing r.id (List.mem_map_of_mem hr)
  refine (sequenceFlow?_of_clean h clean hx hc he
    (FlowElement.listed_mem_references hedges hr)).imp_right ?_
  rintro ⟨f, hf⟩
  exact ⟨f, hf, checkEdge_eq_none_iff.mp hedge f hf⟩

include h clean hx hc in
/-- **A default flow leaves the node that declares it.** -/
theorem defaultFlow_of_clean {e : FlowElement} (he : e ∈ c.elements) {r : RefTo .sequenceFlow}
    (hr : e.defaultFlow? = some r) :
    s.OnlyImported r.id ∨ ∃ f, s.sequenceFlow? r.id = some f ∧ f.source.id = e.id := by
  obtain ⟨executable, hcheck⟩ := checkFlowElement_of_clean clean hx hc he
  have hdefault : s.checkDefaultFlow e.id (some r) = [] := by
    have hrest := (List.append_eq_nil_iff.mp hcheck).2
    cases e with
    | event x => cases hr
    | sequenceFlow f => cases hr
    | gateway g =>
      rw [← hr]
      exact (List.append_eq_nil_iff.mp hrest).2
    | _ =>
      rw [← hr]
      exact hrest
  refine (sequenceFlow?_of_clean h clean hx hc he
    (FlowElement.defaultFlow_mem_references hr)).imp_right ?_
  rintro ⟨f, hf⟩
  exact ⟨f, hf, checkDefaultFlow_eq_nil_iff.mp hdefault f hf⟩

end Clean

/-- Nothing is known from imports alone where no import is bound. -/
theorem not_onlyImported (hunbound : ∀ i ∈ s.imports, i.scope? = none) (id : Id) :
    ¬s.OnlyImported id := by
  rintro ⟨hc, t, ht, hct⟩
  have hnone : s.imports.filterMap Import.scope? = [] := List.filterMap_eq_nil_iff.mpr hunbound
  rw [searched_eq, hnone, List.flatMap_nil, List.mem_singleton] at ht
  rw [ht, hc] at hct
  cases hct

/-- **A clean report vouches for sequence flows**, as far as the identifiers named there are not
known from imports alone: the flows of every container connect flow nodes that it contains itself,
every flow listed at a node ends or starts there, and default flows leave the nodes that declare
them. Without a bound import no identifier is exempt. -/
theorem flows_fit_of_clean (h : Reachable s) (clean : (s.validate default).isClean = true) :
    (∀ o x c, ⟨o, x⟩ ∈ s.placed → x.container? = some c → s.FlowsFit s.OnlyImported c) ∧
      ((∀ i ∈ s.imports, i.scope? = none) → ∀ id, ¬s.OnlyImported id) := by
  refine ⟨fun o x c hx hc => ?_, not_onlyImported⟩
  exact {
    ends := fun f hf => ends_of_clean h clean hx hc hf
    incoming := fun e he edges hedges => listed_of_clean h clean hx hc he hedges .incoming
    outgoing := fun e he edges hedges => listed_of_clean h clean hx hc he hedges .outgoing
    defaultFlow := fun e he r hr => defaultFlow_of_clean h clean hx hc he hr }

/-- Adds a process with a task and a flow from there. -/
def withFlow (start : Scope) (target : Id) : Scope :=
  (Change.addFlowElement ⟨"p"⟩
      (.sequenceFlow ⟨⟨.bare ⟨"f"⟩, none, []⟩, ⟨⟨"a"⟩⟩, ⟨target⟩, none, none⟩)).after <|
    (Change.addFlowElement ⟨"p"⟩ (.task (.bare ⟨"a"⟩) .plain)).after <|
    (Change.addRoot (.process (.bare ⟨"p"⟩))).after start

theorem withFlow_reachable {start : Scope} (h : Reachable start) (target : Id) :
    Reachable (start.withFlow target) :=
  .after _ (.sequenceFlow _) nofun <| .after _ (.task _ _) nofun <|
    .after _ ⟨[], [], nofun, rfl⟩ nofun h

/-- A scope in which a flow leads from a task back to it. -/
def looping : Scope := (fresh ⟨"Defs"⟩ "urn:t").withFlow ⟨"a"⟩

/-- The flow of the loop fits. -/
theorem flows_fit_of_clean_looping : ∃ c, looping.containerAt? [⟨"p"⟩] = some c ∧
    c.sequenceFlows.length = 1 ∧ looping.FlowsFit (fun _ => False) c := by
  have hs : Reachable looping := withFlow_reachable (.fresh _ _) _
  have clean : (looping.validate default).isClean = true := by decide +kernel
  have hflow : (looping.containerAt? [⟨"p"⟩]).map (·.sequenceFlows.length) = some 1 := by
    decide +kernel
  have himports : looping.imports = [] := rfl
  obtain ⟨c, hc, hlength⟩ := Option.map_eq_some_iff.mp hflow
  obtain ⟨x, hpath, hx⟩ := exists_of_containerAt? hc
  obtain ⟨o, ho⟩ := hpath.mem_placed
  obtain ⟨hfit, hunbound⟩ := flows_fit_of_clean hs clean
  have hnone : looping.OnlyImported = fun _ => False :=
    funext fun id => eq_false (hunbound (by rw [himports]; exact nofun) id)
  exact ⟨c, hc, hlength, hnone ▸ hfit o x c ho hx⟩

/-- A scope with a task that another scope can import. -/
def library : Scope :=
  (Change.addFlowElement ⟨"l"⟩ (.task (.bare ⟨"b"⟩) .plain)).after <|
    (Change.addRoot (.process (.bare ⟨"l"⟩))).after (fresh ⟨"Library"⟩ "urn:l")

/-- A scope in which a flow leads to a task of an import. -/
def crossing : Scope :=
  ((Change.addImport (.bound ⟨.bpmn20, "urn:l", "l.bpmn"⟩ 0 library)).after
    (fresh ⟨"Defs"⟩ "urn:t")).withFlow ⟨"b"⟩

/-- **The end of a flow may be known from an import alone, and no check objects**: the check of
containers leaves it to the resolution of references, which finds it behind the import. -/
theorem flows_misfit_crossing :
    Reachable crossing ∧ (crossing.validate default).isClean = true ∧
      ∃ o x c, ⟨o, x⟩ ∈ crossing.placed ∧ x.container? = some c ∧
        ¬crossing.FlowsFit (fun _ => False) c := by
  have hlibrary : Reachable library :=
    .after _ (.task _ _) nofun <| .after _ ⟨[], [], nofun, rfl⟩ nofun (.fresh _ _)
  have hs : Reachable crossing :=
    withFlow_reachable
      (.after (.addImport _) trivial (by rintro t ⟨⟩; exact hlibrary) (.fresh _ _)) _
  have hflow : (crossing.containerAt? [⟨"p"⟩]).map
      (fun c => (c.sequenceFlows.map (·.target.id), (c.find? ⟨"b"⟩).isNone)) =
        some ([⟨"b"⟩], true) := by decide +kernel
  obtain ⟨c, hc, hflow⟩ := Option.map_eq_some_iff.mp hflow
  obtain ⟨htargets, hnone⟩ := Prod.mk.inj hflow
  obtain ⟨x, hpath, hx⟩ := exists_of_containerAt? hc
  obtain ⟨o, ho⟩ := hpath.mem_placed
  refine ⟨hs, by decide +kernel, o, x, c, ho, hx, fun hfit => ?_⟩
  obtain ⟨f, hf, htarget⟩ := List.mem_map.mp (htargets ▸ List.mem_singleton_self (⟨"b"⟩ : Id))
  obtain ⟨e, he, hid, -⟩ := (hfit.ends f hf _ (List.mem_pair.mpr (.inr rfl))).resolve_left not_false
  rw [htarget] at hid
  exact Container.not_mem_of_find?_eq_none (Option.isNone_iff_eq_none.mp hnone)
    (hid ▸ List.mem_map_of_mem he)

end Scope

end BpmnModel
