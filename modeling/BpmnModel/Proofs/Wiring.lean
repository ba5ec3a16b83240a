import BpmnModel.Proofs.Editing

/-!
# Containers stay wired

* `Container.Wired` — no identifier twice, and every sequence flow is listed at the nodes that it
  touches, so that listing it again changes nothing.
* `Container.assemble_of_wired` — a wired container is its own assembly.
* `Container.Complete` — wired at every depth; `FlowElement.assembled_subProcess_iff` and
  `Process.assembled_iff` say that this is what can be built.
-/

namespace BpmnModel

/-! ## Listing flows -/

namespace Edges

variable {node : Id} {edges : Edges} {flow other : SequenceFlow}

/-- The flow is listed at the sides on which it touches `node`. -/
def Lists (node : Id) (edges : Edges) (flow : SequenceFlow) : Prop :=
  (flow.source.id = node → ⟨flow.id⟩ ∈ edges.outgoing) ∧
    (flow.target.id = node → ⟨flow.id⟩ ∈ edges.incoming)

theorem mem_outgoing_attach {ref : RefTo .sequenceFlow} :
    ref ∈ (attach node edges flow).outgoing ↔
      ref ∈ edges.outgoing ∨ (flow.source.id = node ∧ ref = ⟨flow.id⟩) := by
  unfold attach attachOutgoing attachIncoming
  by_cases hs : flow.source.id = node <;> by_cases ht : flow.target.id = node <;>
    simp only [hs, ht, if_true, if_false] <;> grind

theorem mem_incoming_attach {ref : RefTo .sequenceFlow} :
    ref ∈ (attach node edges flow).incoming ↔
      ref ∈ edges.incoming ∨ (flow.target.id = node ∧ ref = ⟨flow.id⟩) := by
  unfold attach attachOutgoing attachIncoming
  by_cases hs : flow.source.id = node <;> by_cases ht : flow.target.id = node <;>
    simp only [hs, ht, if_true, if_false] <;> grind

theorem lists_attach : (attach node edges flow).Lists node flow :=
  ⟨fun hs => mem_outgoing_attach.mpr (.inr ⟨hs, rfl⟩),
    fun ht => mem_incoming_attach.mpr (.inr ⟨ht, rfl⟩)⟩

/-- What is listed stays listed. -/
theorem Lists.attach (h : edges.Lists node flow) : (Edges.attach node edges other).Lists node flow :=
  ⟨fun hs => mem_outgoing_attach.mpr (.inl (h.1 hs)),
    fun ht => mem_incoming_attach.mpr (.inl (h.2 ht))⟩

theorem Lists.detach (h : edges.Lists node flow) {gone : Id} (hne : flow.id ≠ gone) :
    (edges.detach gone).Lists node flow :=
  ⟨fun hs => List.mem_filter.mpr ⟨h.1 hs, by simpa using hne⟩,
    fun ht => List.mem_filter.mpr ⟨h.2 ht, by simpa using hne⟩⟩

/-- A flow is listed where listing it changes nothing. -/
theorem attach_eq_self_iff : attach node edges flow = edges ↔ edges.Lists node flow := by
  constructor
  · intro h
    rw [← h]
    exact lists_attach
  · rintro ⟨hout, hin⟩
    unfold attach attachOutgoing attachIncoming
    by_cases hs : flow.source.id = node <;> by_cases ht : flow.target.id = node <;>
      simp [hs, ht, hout, hin]

end Edges

namespace FlowElement

variable {e : FlowElement} {flow other : SequenceFlow}

theorem edges?_mapEdges (f : Edges → Edges) (e : FlowElement) :
    (e.mapEdges f).edges? = e.edges?.map f := by
  cases e <;> rfl

theorem mapEdges_eq_self_iff {f : Edges → Edges} :
    e.mapEdges f = e ↔ ∀ edges, e.edges? = some edges → f edges = edges := by
  cases e with
  | task a w => cases a; simp [mapEdges, edges?]
  | callActivity a c => cases a; simp [mapEdges, edges?]
  | subProcess a t es ls as => cases a; simp [mapEdges, edges?]
  | gateway g => cases g; simp [mapEdges, edges?]
  | event e => cases e; simp [mapEdges, edges?]
  | sequenceFlow f => simp [mapEdges, edges?]

theorem attach_eq_self_iff :
    e.attach flow = e ↔ ∀ edges, e.edges? = some edges → edges.Lists e.id flow := by
  rw [attach, mapEdges_eq_self_iff]
  simp only [Edges.attach_eq_self_iff]

theorem attach_attach_self : (e.attach flow).attach flow = e.attach flow := by
  rw [attach_eq_self_iff, attach, edges?_mapEdges, id_mapEdges]
  simp only [Option.map_eq_some_iff]
  rintro edges ⟨before, -, rfl⟩
  exact Edges.lists_attach

theorem attach_attach (h : e.attach flow = e) : (e.attach other).attach flow = e.attach other := by
  rw [attach_eq_self_iff] at h ⊢
  rw [attach, edges?_mapEdges, id_mapEdges]
  simp only [Option.map_eq_some_iff]
  rintro edges ⟨before, hbefore, rfl⟩
  exact (h before hbefore).attach

theorem detach_attach (h : e.attach flow = e) {gone : Id} (hne : flow.id ≠ gone) :
    (e.detach gone).attach flow = e.detach gone := by
  rw [attach_eq_self_iff] at h ⊢
  rw [detach, edges?_mapEdges, id_mapEdges]
  simp only [Option.map_eq_some_iff]
  rintro edges ⟨before, hbefore, rfl⟩
  exact (h before hbefore).detach hne

theorem attach_mapContainer (f : Container → Container) (e : FlowElement) (flow : SequenceFlow) :
    (e.mapContainer f).attach flow = (e.attach flow).mapContainer f := by
  cases e <;> rfl

/-- A node lists all flows of a list after they were attached in turn. -/
theorem foldl_attach_attach {flows : List SequenceFlow} (h : flow ∈ flows ∨ e.attach flow = e) :
    (flows.foldl attach e).attach flow = flows.foldl attach e := by
  induction flows generalizing e with
  | nil =>
    rcases h with h | h
    · cases h
    · exact h
  | cons f flows ih =>
    rw [List.foldl_cons]
    refine ih ?_
    rcases h with h | h
    · rcases List.mem_cons.mp h with rfl | h
      · exact .inr attach_attach_self
      · exact .inl h
    · exact .inr (attach_attach h)

theorem foldl_attach_eq_self {flows : List SequenceFlow} (h : ∀ f ∈ flows, e.attach f = e) :
    flows.foldl attach e = e := by
  induction flows with
  | nil => rfl
  | cons f flows ih =>
    rw [List.foldl_cons, h f List.mem_cons_self]
    exact ih fun g hg => h g (List.mem_cons_of_mem f hg)

@[simp]
theorem sequenceFlow?_mapEdges (f : Edges → Edges) (e : FlowElement) :
    (e.mapEdges f).sequenceFlow? = e.sequenceFlow? := by
  cases e <;> rfl

@[simp]
theorem sequenceFlow?_mapContainer (f : Container → Container) (e : FlowElement) :
    (e.mapContainer f).sequenceFlow? = e.sequenceFlow? := by
  cases e <;> rfl

theorem sequenceFlow?_foldl_attach (flows : List SequenceFlow) (e : FlowElement) :
    (flows.foldl attach e).sequenceFlow? = e.sequenceFlow? := by
  rw [foldl_attach_eq, sequenceFlow?_mapEdges]

theorem id_foldl_attach (flows : List SequenceFlow) (e : FlowElement) :
    (flows.foldl attach e).id = e.id := by
  rw [foldl_attach_eq, id_mapEdges]

theorem id_of_sequenceFlow? (h : e.sequenceFlow? = some flow) : e.id = flow.id := by
  cases e with
  | sequenceFlow f =>
    cases h
    rfl
  | _ => cases h

end FlowElement

/-! ## Wired containers -/

namespace Container

variable {c c' inner new : Container} {e : FlowElement}

theorem mem_sequenceFlows {flow : SequenceFlow} :
    flow ∈ c.sequenceFlows ↔ ∃ e ∈ c.elements, e.sequenceFlow? = some flow :=
  List.mem_filterMap

/-- No identifier twice, and every sequence flow is listed at the nodes that it touches. -/
structure Wired (c : Container) : Prop where
  nodup : (c.elements.map FlowElement.id).Nodup
  listed : ∀ flow ∈ c.sequenceFlows, ∀ e ∈ c.elements, e.attach flow = e

theorem wired_nil (laneSets : List LaneSet) : Wired ⟨[], laneSets⟩ :=
  ⟨List.nodup_nil, nofun⟩

theorem not_mem_of_find?_eq_none {id : Id} (h : c.find? id = none) :
    id ∉ c.elements.map FlowElement.id := by
  intro hm
  obtain ⟨e, he, rfl⟩ := List.mem_map.mp hm
  have := List.find?_eq_none.mp h e he
  simp at this

theorem Wired.insert (h : c.Wired) (hins : c.insert e = .ok c') : c'.Wired := by
  obtain ⟨hfind, ⟨flow, rfl, rfl⟩ | ⟨hnode, rfl⟩⟩ := insert_cases hins
  · have hnew := not_mem_of_find?_eq_none hfind
    constructor
    · have hids : (c.elements.map (·.attach flow)).map FlowElement.id =
          c.elements.map FlowElement.id := by
        rw [List.map_map]
        exact List.map_congr_left fun e _ => e.id_attach flow
      simp only [List.map_append, hids]
      refine List.nodup_append.mpr ⟨h.nodup, List.nodup_singleton _, ?_⟩
      intro x hx y hy heq
      rw [List.map_singleton, List.mem_singleton] at hy
      exact hnew (hy ▸ heq ▸ hx)
    · intro other hother e he
      -- the flow is listed at the nodes by now, and what was listed stays so
      have hother : other ∈ c.sequenceFlows ∨ other = flow := by
        obtain ⟨x, hx, hxo⟩ := mem_sequenceFlows.mp hother
        rcases List.mem_append.mp hx with hx | hx
        · obtain ⟨y, hy, rfl⟩ := List.mem_map.mp hx
          rw [FlowElement.attach, FlowElement.sequenceFlow?_mapEdges] at hxo
          exact .inl (mem_sequenceFlows.mpr ⟨y, hy, hxo⟩)
        · rw [List.mem_singleton.mp hx] at hxo
          cases hxo
          exact .inr rfl
      rcases List.mem_append.mp he with he | he
      · obtain ⟨y, hy, rfl⟩ := List.mem_map.mp he
        rcases hother with hother | rfl
        · exact FlowElement.attach_attach (h.listed other hother y hy)
        · exact FlowElement.attach_attach_self
      · rw [List.mem_singleton.mp he]
        rfl
  · have hnew := not_mem_of_find?_eq_none hfind
    constructor
    · rw [List.map_append, List.map_singleton, FlowElement.id_foldl_attach]
      refine List.nodup_append.mpr ⟨h.nodup, List.nodup_singleton _, ?_⟩
      intro x hx y hy heq
      rw [List.mem_singleton] at hy
      exact hnew (hy ▸ heq ▸ hx)
    · intro other hother x hx
      have hother : other ∈ c.sequenceFlows := by
        obtain ⟨y, hy, hyo⟩ := mem_sequenceFlows.mp hother
        rcases List.mem_append.mp hy with hy | hy
        · exact mem_sequenceFlows.mpr ⟨y, hy, hyo⟩
        · rw [List.mem_singleton.mp hy, FlowElement.sequenceFlow?_foldl_attach, hnode] at hyo
          cases hyo
      rcases List.mem_append.mp hx with hx | hx
      · exact h.listed other hother x hx
      · rw [List.mem_singleton.mp hx]
        exact FlowElement.foldl_attach_attach (.inl hother)

theorem Wired.remove? (h : c.Wired) {id : Id} (hrem : c.remove? id = some (e, c')) : c'.Wired := by
  obtain ⟨hfind, hcases⟩ := remove?_cases hrem
  have hid : e.id = id := by simpa using List.find?_some hfind
  have hsub : (c.elements.eraseP (·.id = id)).Sublist c.elements := List.eraseP_sublist
  have hrest : Wired ⟨c.elements.eraseP (·.id = id), c.laneSets⟩ := by
    refine ⟨(hsub.map _).nodup h.nodup, ?_⟩
    intro flow hflow x hx
    obtain ⟨y, hy, hyf⟩ := mem_sequenceFlows.mp hflow
    exact h.listed flow (mem_sequenceFlows.mpr ⟨y, hsub.subset hy, hyf⟩) x (hsub.subset hx)
  obtain ⟨flow, rfl, rfl⟩ | ⟨-, rfl⟩ := hcases
  · have hgone : id ∉ (c.elements.eraseP (·.id = id)).map FlowElement.id := by
      have hnd := ((perm_cons_eraseP_of_find? hfind).map FlowElement.id).nodup_iff.mp h.nodup
      rw [List.map_cons, List.nodup_cons, hid] at hnd
      exact hnd.1
    constructor
    · rw [List.map_map]
      exact (List.map_congr_left fun y _ => FlowElement.id_detach y id) ▸ hrest.nodup
    · intro other hother x hx
      obtain ⟨y, hy, rfl⟩ := List.mem_map.mp hx
      obtain ⟨z, hz, hzo⟩ := mem_sequenceFlows.mp hother
      obtain ⟨w, hw, rfl⟩ := List.mem_map.mp hz
      rw [FlowElement.detach, FlowElement.sequenceFlow?_mapEdges] at hzo
      have hne : other.id ≠ id := by
        intro heq
        have hwid : w.id = id := (FlowElement.id_of_sequenceFlow? hzo).trans heq
        exact hgone (List.mem_map.mpr ⟨w, hw, hwid⟩)
      exact FlowElement.detach_attach
        (hrest.listed other (mem_sequenceFlows.mpr ⟨w, hw, hzo⟩) y hy) hne
  · exact hrest

theorem Wired.pushLaneSet (h : c.Wired) (s : LaneSet) : (c.pushLaneSet s).Wired :=
  ⟨h.nodup, h.listed⟩

/-- What a container contains does not touch its wiring. -/
theorem Wired.mapContainer (h : c.Wired) (step : Id) (f : Container → Container) :
    Wired ⟨c.elements.map fun e => if e.id = step then e.mapContainer f else e, c.laneSets⟩ := by
  have hkeep (e : FlowElement) : (if e.id = step then e.mapContainer f else e).id = e.id ∧
      (if e.id = step then e.mapContainer f else e).sequenceFlow? = e.sequenceFlow? := by
    split <;> simp
  constructor
  · rw [List.map_map]
    exact (List.map_congr_left fun y _ => (hkeep y).1) ▸ h.nodup
  · intro flow hflow x hx
    obtain ⟨y, hy, rfl⟩ := List.mem_map.mp hx
    obtain ⟨z, hz, hzf⟩ := mem_sequenceFlows.mp hflow
    obtain ⟨w, hw, rfl⟩ := List.mem_map.mp hz
    rw [(hkeep w).2] at hzf
    have hlisted := h.listed flow (mem_sequenceFlows.mpr ⟨w, hw, hzf⟩) y hy
    split
    · rw [FlowElement.attach_mapContainer, hlisted]
    · exact hlisted

/-! ## Assemblies -/

theorem Wired.insertAll (h : c.Wired) {es : List FlowElement} (hins : c.insertAll es = .ok c') :
    c'.Wired := by
  induction es generalizing c with
  | nil =>
    cases hins
    exact h
  | cons e es ih =>
    rw [Container.insertAll] at hins
    split at hins
    · cases hins
    · rename_i d hd
      exact ih (h.insert hd) hins

theorem laneSets_insertAll {es : List FlowElement} (hins : c.insertAll es = .ok c') :
    c'.laneSets = c.laneSets := by
  induction es generalizing c with
  | nil =>
    cases hins
    rfl
  | cons e es ih =>
    rw [Container.insertAll] at hins
    split at hins
    · cases hins
    · rename_i d hd
      rw [ih hins, laneSets_insert hd]

/-- Inserting the rest of a wired container, element by element, changes no element. -/
theorem insertAll_of_wired {done rest : List FlowElement} {laneSets : List LaneSet}
    (h : Wired ⟨done ++ rest, laneSets⟩) :
    insertAll ⟨done, laneSets⟩ rest = .ok ⟨done ++ rest, laneSets⟩ := by
  induction rest generalizing done with
  | nil => rw [List.append_nil]; rfl
  | cons e rest ih =>
    have hins : insert ⟨done, laneSets⟩ e = .ok ⟨done ++ [e], laneSets⟩ := by
      have hfind : find? ⟨done, laneSets⟩ e.id = none := by
        rw [find?, List.find?_eq_none]
        intro x hx
        have hnd := h.nodup
        rw [List.map_append, List.map_cons, List.nodup_append] at hnd
        simpa using hnd.2.2 x.id (List.mem_map_of_mem hx) e.id List.mem_cons_self
      have hlisted {flow : SequenceFlow} {x y : FlowElement} (hx : x ∈ done ++ e :: rest)
          (hy : y ∈ done ++ e :: rest) (hflow : x.sequenceFlow? = some flow) : y.attach flow = y :=
        h.listed flow (mem_sequenceFlows.mpr ⟨x, hx, hflow⟩) y hy
      have hself : e ∈ done ++ e :: rest := List.mem_append_right _ List.mem_cons_self
      have hfold : (sequenceFlows ⟨done, laneSets⟩).foldl .attach e = e := by
        apply FlowElement.foldl_attach_eq_self
        intro flow hflow
        obtain ⟨x, hx, hxf⟩ := mem_sequenceFlows.mp hflow
        exact hlisted (List.mem_append_left _ hx) hself hxf
      unfold insert
      rw [hfind]
      cases e with
      | sequenceFlow flow =>
        have hmap : done.map (·.attach flow) = done := by
          refine (List.map_congr_left fun y hy => ?_).trans (List.map_id done)
          exact hlisted hself (List.mem_append_left _ hy) rfl
        simp only [hmap]
      | _ => exact congrArg (fun x => Except.ok (Container.mk (done ++ [x]) laneSets)) hfold
    rw [insertAll, hins]
    simp only
    rw [ih (by rwa [List.append_assoc, List.singleton_append]), List.append_assoc,
      List.singleton_append]

/-- **A wired container is its own assembly.** -/
theorem assemble_of_wired (h : c.Wired) : assemble c.elements c.laneSets = .ok c :=
  insertAll_of_wired (show Wired ⟨[] ++ c.elements, c.laneSets⟩ from h)

theorem wired_of_assemble {es : List FlowElement} {laneSets : List LaneSet}
    (h : assemble es laneSets = .ok c) : c.Wired :=
  (wired_nil laneSets).insertAll h

/-- What attaching a flow keeps holds of all elements if it holds of those inserted. -/
theorem forall_insert {P : FlowElement → Prop} (hattach : ∀ e flow, P e → P (e.attach flow))
    (h : ∀ x ∈ c.elements, P x) (he : P e) (hins : c.insert e = .ok c') :
    ∀ x ∈ c'.elements, P x := by
  obtain ⟨-, ⟨flow, rfl, rfl⟩ | ⟨-, rfl⟩⟩ := insert_cases hins
  · rw [List.forall_mem_append, List.forall_mem_map]
    exact ⟨fun x hx => hattach x flow (h x hx), List.forall_mem_singleton.mpr he⟩
  · rw [List.forall_mem_append]
    refine ⟨h, List.forall_mem_singleton.mpr ?_⟩
    clear hins
    generalize c.sequenceFlows = flows
    induction flows generalizing e with
    | nil => exact he
    | cons f flows ih => exact ih (hattach e f he)

theorem forall_insertAll {P : FlowElement → Prop} (hattach : ∀ e flow, P e → P (e.attach flow))
    (h : ∀ x ∈ c.elements, P x) {es : List FlowElement} (hes : ∀ e ∈ es, P e)
    (hins : c.insertAll es = .ok c') : ∀ x ∈ c'.elements, P x := by
  induction es generalizing c with
  | nil =>
    cases hins
    exact h
  | cons e es ih =>
    rw [Container.insertAll] at hins
    split at hins
    · cases hins
    · rename_i d hd
      exact ih (forall_insert hattach h (hes e List.mem_cons_self) hd)
        (fun x hx => hes x (List.mem_cons_of_mem e hx)) hins

theorem forall_assemble {P : FlowElement → Prop} (hattach : ∀ e flow, P e → P (e.attach flow))
    {es : List FlowElement} {laneSets : List LaneSet} (hes : ∀ e ∈ es, P e)
    (h : assemble es laneSets = .ok c) : ∀ x ∈ c.elements, P x :=
  forall_insertAll hattach (by simp) hes h

/-! ## Complete containers -/

/-- Wired, and so are the containers within. -/
structure Complete (c : Container) : Prop where
  wired : c.Wired
  inner : ∀ e ∈ c.elements, e.Assembled

end Container

/-- What holds of a flow element if it holds of its contents holds of all flow elements. -/
theorem FlowElement.contents_induction {P : FlowElement → Prop}
    (step : ∀ e, (∀ c, e.container? = some c → ∀ x ∈ c.elements, P x) → P e) : ∀ e, P e
  | .subProcess _ _ es _ _ => step _ fun c hc x hx => by
    have hx : x ∈ es := by
      cases hc
      exact hx
    exact contents_induction step x
  | .task _ _ => step _ nofun
  | .callActivity _ _ => step _ nofun
  | .gateway _ => step _ nofun
  | .event _ => step _ nofun
  | .sequenceFlow _ => step _ nofun

theorem FlowElement.Assembled.mapEdges {e : FlowElement} (h : e.Assembled) (f : Edges → Edges) :
    (e.mapEdges f).Assembled := by
  cases h with
  | task a w => exact .task _ w
  | callActivity a c => exact .callActivity _ c
  | subProcess a t as inner assembled => exact .subProcess _ t as inner assembled
  | gateway g => exact .gateway _
  | event e => exact .event _
  | sequenceFlow f => exact .sequenceFlow f

namespace Container

variable {c c' inner new : Container} {e : FlowElement}

namespace Complete

theorem insert (h : c.Complete) (he : e.Assembled) (hins : c.insert e = .ok c') : c'.Complete :=
  ⟨h.wired.insert hins, forall_insert (fun _ _ he => he.mapEdges _) h.inner he hins⟩

theorem of_assemble {es : List FlowElement} {laneSets : List LaneSet}
    (hes : ∀ e ∈ es, e.Assembled) (h : assemble es laneSets = .ok c) : c.Complete :=
  ⟨(wired_nil laneSets).insertAll h, forall_assemble (fun _ _ he => he.mapEdges _) hes h⟩

theorem remove? (h : c.Complete) {id : Id} (hrem : c.remove? id = some (e, c')) : c'.Complete := by
  refine ⟨h.wired.remove? hrem, ?_⟩
  intro x hx
  have hsub : (c.elements.eraseP (·.id = id)).Sublist c.elements := List.eraseP_sublist
  obtain ⟨-, ⟨flow, rfl, rfl⟩ | ⟨-, rfl⟩⟩ := remove?_cases hrem
  · obtain ⟨y, hy, rfl⟩ := List.mem_map.mp hx
    exact (h.inner y (hsub.subset hy)).mapEdges _
  · exact h.inner x (hsub.subset hx)

theorem pushLaneSet (h : c.Complete) (s : LaneSet) : (c.pushLaneSet s).Complete :=
  ⟨h.wired.pushLaneSet s, h.inner⟩

end Complete

end Container

/-- **A sub-process can be built exactly if its contents are complete.** -/
theorem FlowElement.assembled_subProcess_iff {a : Activity} {t : Bool} {es : List FlowElement}
    {ls : List LaneSet} {as : List Artifact} :
    (subProcess a t es ls as).Assembled ↔ Container.Complete ⟨es, ls⟩ := by
  constructor
  · intro h
    cases h with
    | subProcess a t as inner assembled => exact .of_assemble inner assembled
  · intro h
    exact .subProcess a t as h.inner (Container.assemble_of_wired h.wired)

theorem FlowElement.Assembled.complete {e : FlowElement} (h : e.Assembled) {c : Container}
    (hc : e.container? = some c) : c.Complete := by
  cases e with
  | subProcess a t es ls as =>
    cases hc
    exact assembled_subProcess_iff.mp h
  | _ => cases hc

/-- **A process can be built exactly if its contents are complete.** -/
theorem Process.assembled_iff {p : Process} : p.Assembled ↔ p.container.Complete := by
  constructor
  · rintro ⟨es, ls, hes, h⟩
    exact .of_assemble hes h
  · intro h
    exact ⟨_, _, h.inner, Container.assemble_of_wired h.wired⟩

namespace Container

variable {c inner new : Container}

theorem Complete.descend? (h : c.Complete) {path : List Id} (hd : c.descend? path = some inner) :
    inner.Complete := by
  induction path generalizing c with
  | nil =>
    cases hd
    exact h
  | cons step rest ih =>
    rw [Container.descend?] at hd
    cases hf : (c.find? step).bind FlowElement.container? with
    | none =>
      rw [hf] at hd
      cases hd
    | some mid =>
      rw [hf] at hd
      obtain ⟨e, he, hmid⟩ := Option.bind_eq_some_iff.mp hf
      exact ih ((h.inner e (List.mem_of_find?_eq_some he)).complete hmid) hd

/-- A complete container in the place of another leaves the outer one complete. -/
theorem Complete.replaceAt (h : c.Complete) (hnew : new.Complete) (path : List Id) :
    (replaceAt new path c).Complete := by
  induction path generalizing c with
  | nil => exact hnew
  | cons step rest ih =>
    refine ⟨h.wired.mapContainer step _, ?_⟩
    intro x hx
    obtain ⟨y, hy, rfl⟩ := List.mem_map.mp hx
    have hassembled := h.inner y hy
    split
    · cases y with
      | subProcess a t es ls as =>
        exact FlowElement.assembled_subProcess_iff.mpr
          (ih (FlowElement.assembled_subProcess_iff.mp hassembled))
      | _ => exact hassembled
    · exact hassembled

end Container

end BpmnModel
