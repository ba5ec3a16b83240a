import BpmnModel.Proofs.Clashes
import BpmnModel.Proofs.Congruence
import BpmnModel.Proofs.EdgeOrder

/-!
# Adding and removing undo each other

An addition followed by the removal of what was added leads back to the very scope that was there.
A removal followed by the addition of what was removed leads to a scope that counts as equal: the
element comes last where it stood, and its registrations come last in the registry.

* `Container.remove?_insert`, `Container.insert_remove?` — both directions for one container.
* `Container.replaceAt_self`, `Container.same_replaceAt` — the same container, or one that counts as
  equal, in the place of a container at any depth.
* `Scope.Removes.register_again` — what was taken out of the registry can be registered again.
* `Reachable.add_remove_undo` — both directions for flow elements and for root elements.
-/

namespace BpmnModel

/-- The last of a list is found and taken out by its name if no other bears it. -/
theorem find?_eraseP_concat {α : Type} {name : α → Id} {xs : List α} {x : α}
    (h : ∀ y ∈ xs, name y ≠ name x) :
    (xs ++ [x]).find? (name · = name x) = some x ∧
      (xs ++ [x]).eraseP (name · = name x) = xs := by
  have hnone : xs.find? (name · = name x) = none :=
    List.find?_eq_none.mpr fun y hy => by simpa using h y hy
  constructor
  · rw [List.find?_append, hnone]
    simp
  · rw [List.eraseP_append_right _ fun y hy => by simpa using h y hy]
    simp

/-! ## Flows listed and struck -/

/-- Striking a flow right after it was listed leads back, if it was not listed before. -/
theorem Edges.detach_attach_self {node : Id} {edges : Edges} {flow : SequenceFlow}
    (hin : ⟨flow.id⟩ ∉ edges.incoming) (hout : ⟨flow.id⟩ ∉ edges.outgoing) :
    (attach node edges flow).detach flow.id = edges := by
  have keep {refs : List (RefTo .sequenceFlow)} (h : ⟨flow.id⟩ ∉ refs) :
      refs.filter (fun r => !decide (r.id = flow.id)) = refs := by
    refine List.filter_eq_self.mpr fun r hr => ?_
    rw [Bool.not_eq_true', decide_eq_false_iff_not]
    intro heq
    exact h (heq ▸ hr)
  unfold attach attachOutgoing attachIncoming detach
  by_cases hs : flow.source.id = node <;> by_cases ht : flow.target.id = node <;>
    simp [hs, ht, hin, hout, keep hin, keep hout]

/-- A sub-process counts as equal if its contents do. -/
theorem FlowElement.same_mapContainer {e : FlowElement} {k : Container} (hk : e.container? = some k)
    {f : Container → Container} (hsame : k.same (f k) = true) :
    same e (e.mapContainer f) = true := by
  cases e with
  | subProcess a t es ls as =>
    cases hk
    rw [Container.same, Bool.and_eq_true, Bool.and_eq_true] at hsame
    obtain ⟨⟨hlength, heach⟩, hls⟩ := hsame
    rw [mapContainer, same, hlength, heach, hls]
    simp
  | _ => cases hk

namespace Container

/-- Some node of the container lists a flow of this identifier. -/
def IsListed (c : Container) (flow : Id) : Prop :=
  ∃ e ∈ c.elements, ∃ edges, e.edges? = some edges ∧
    (⟨flow⟩ ∈ edges.incoming ∨ ⟨flow⟩ ∈ edges.outgoing)

variable {c c' inner new : Container} {e : FlowElement} {id : Id}

theorem detach_attach_of_not_listed {flow : SequenceFlow} (h : ¬ c.IsListed flow.id)
    (he : e ∈ c.elements) : (e.attach flow).detach flow.id = e := by
  rw [FlowElement.attach, FlowElement.detach, FlowElement.mapEdges_mapEdges,
    FlowElement.mapEdges_eq_self_iff]
  intro edges hedges
  refine Edges.detach_attach_self (fun hin => h ?_) (fun hout => h ?_)
  · exact ⟨e, he, edges, hedges, .inl hin⟩
  · exact ⟨e, he, edges, hedges, .inr hout⟩

/-! ## One container -/

theorem remove?_of_node (hfind : c.find? id = some e) (hnode : e.sequenceFlow? = none) :
    c.remove? id = some (e, ⟨c.elements.eraseP (·.id = id), c.laneSets⟩) := by
  rw [remove?, hfind]
  cases e with
  | sequenceFlow flow => cases hnode
  | _ => rfl

theorem remove?_of_flow {flow : SequenceFlow} (hfind : c.find? id = some (.sequenceFlow flow)) :
    c.remove? id = some (.sequenceFlow flow,
      ⟨(c.elements.eraseP (·.id = id)).map (.detach id), c.laneSets⟩) := by
  rw [remove?, hfind]

/-- **What was inserted is taken out again, with the flows that it lists by now**, and the container
is as before. A flow must not have been listed anywhere before it came. -/
theorem remove?_insert (hins : c.insert e = .ok c')
    (hnew : e.sequenceFlow?.isSome = true → ¬ c.IsListed e.id) :
    c'.remove? e.id = some (c.sequenceFlows.foldl .attach e, c) := by
  obtain ⟨hfind, ⟨flow, rfl, rfl⟩ | ⟨hnode, rfl⟩⟩ := insert_cases hins
  · have hother : ∀ y ∈ c.elements.map (·.attach flow), y.id ≠ flow.id := by
      intro y hy hid
      obtain ⟨x, hx, rfl⟩ := List.mem_map.mp hy
      rw [FlowElement.id_attach] at hid
      exact not_mem_of_find?_eq_none hfind (List.mem_map.mpr ⟨x, hx, hid⟩)
    obtain ⟨hlast, herase⟩ := find?_eraseP_concat (x := FlowElement.sequenceFlow flow) hother
    have hback : (c.elements.map (·.attach flow)).map (.detach flow.id) = c.elements := by
      rw [List.map_map]
      refine (List.map_congr_left fun x hx => ?_).trans (List.map_id _)
      exact detach_attach_of_not_listed (hnew rfl) hx
    have hself : c.sequenceFlows.foldl FlowElement.attach (.sequenceFlow flow) =
        .sequenceFlow flow := FlowElement.foldl_attach_eq_self fun _ _ => rfl
    have hfound :
      find? ⟨c.elements.map (·.attach flow) ++ [.sequenceFlow flow], c.laneSets⟩ flow.id =
        some (.sequenceFlow flow) := hlast
    rw [show (FlowElement.sequenceFlow flow).id = flow.id from rfl] at herase ⊢
    rw [remove?_of_flow hfound, hself, herase, hback]
  · have hid : (c.sequenceFlows.foldl .attach e).id = e.id := FlowElement.id_foldl_attach _ e
    have hother : ∀ y ∈ c.elements, y.id ≠ (c.sequenceFlows.foldl .attach e).id := by
      intro y hy heq
      exact not_mem_of_find?_eq_none hfind (List.mem_map.mpr ⟨y, hy, heq.trans hid⟩)
    obtain ⟨hlast, herase⟩ := find?_eraseP_concat hother
    rw [hid] at hlast herase
    have hfound : find? ⟨c.elements ++ [c.sequenceFlows.foldl .attach e], c.laneSets⟩ e.id =
        some (c.sequenceFlows.foldl .attach e) := hlast
    rw [remove?_of_node hfound ((FlowElement.sequenceFlow?_foldl_attach _ e).trans hnode), herase]

/-- **A node that was taken out of a wired container can be inserted again as it is**, and comes
last. -/
theorem insert_remove? (h : c.Wired) (hrem : c.remove? id = some (e, c'))
    (hnode : e.sequenceFlow? = none) :
    ∃ d, c'.insert e = .ok d ∧ d.elements = c'.elements ++ [e] ∧
      c.elements.Perm d.elements ∧ c.laneSets = d.laneSets := by
  obtain ⟨hfind, ⟨flow, rfl, -⟩ | ⟨-, rfl⟩⟩ := remove?_cases hrem
  · cases hnode
  have hid : e.id = id := by simpa using List.find?_some hfind
  have hperm := perm_cons_eraseP_of_find? hfind
  have hsub : (c.elements.eraseP (·.id = id)).Sublist c.elements := List.eraseP_sublist
  refine ⟨⟨c.elements.eraseP (·.id = id) ++ [e], c.laneSets⟩, ?_, rfl,
    hperm.trans (List.perm_append_singleton e _).symm, rfl⟩
  have hnone : find? ⟨c.elements.eraseP (·.id = id), c.laneSets⟩ e.id = none := by
    have hnd := (hperm.map FlowElement.id).nodup_iff.mp h.nodup
    rw [List.map_cons, List.nodup_cons] at hnd
    rw [find?, List.find?_eq_none]
    intro y hy
    rw [decide_eq_true_iff]
    intro heq
    exact hnd.1 (List.mem_map.mpr ⟨y, hy, heq⟩)
  -- the flows that stayed are listed at the node already
  have hlisted :
      (sequenceFlows ⟨c.elements.eraseP (·.id = id), c.laneSets⟩).foldl .attach e = e := by
    refine FlowElement.foldl_attach_eq_self fun flow hflow => ?_
    obtain ⟨y, hy, hyf⟩ := mem_sequenceFlows.mp hflow
    exact h.listed flow (mem_sequenceFlows.mpr ⟨y, hsub.subset hy, hyf⟩) e
      (List.mem_of_find?_eq_some hfind)
  rw [insert_node hnone hnode, hlisted]

/-- The order of flow elements does not count. -/
theorem same_of_perm (h : c.Complete) (hp : c.elements.Perm c'.elements)
    (hls : c.laneSets = c'.laneSets) : c.same c' = true ∧ c'.same c = true := by
  have hself : Rearranged (fun e f => FlowElement.same e f = true) c.elements c.elements :=
    .refl fun e he => FlowElement.same_self (h.inner e he)
  have hnd := (hp.map FlowElement.id).nodup_iff.mp h.wired.nodup
  constructor
  · exact (same_iff h.wired.nodup).mpr ⟨hself.trans_perm hp, hls⟩
  · exact (same_iff hnd).mpr ⟨.perm_trans hp.symm hself, hls.symm⟩

/-! ## Containers put in the place of others -/

/-- Where a step leads to a sub-process, the elements of its identifier are that one. -/
theorem eq_of_step (h : c.Wired) {step : Id} {f : FlowElement}
    (hf : c.find? step = some f) (he : e ∈ c.elements) (hid : e.id = step) : e = f := by
  have hfid : f.id = step := by simpa using List.find?_some hf
  exact List.inj_on_of_nodup_map h.nodup he (List.mem_of_find?_eq_some hf) (hid.trans hfid.symm)

/-- Putting a container in its own place changes nothing. -/
theorem replaceAt_self (h : c.Complete) {path : List Id}
    (hd : c.descend? path = some inner) : replaceAt inner path c = c := by
  induction path generalizing c with
  | nil =>
    cases hd
    rfl
  | cons step rest ih =>
    rw [Container.descend?] at hd
    cases hf : (c.find? step).bind FlowElement.container? with
    | none =>
      rw [hf] at hd
      cases hd
    | some mid =>
      rw [hf] at hd
      obtain ⟨f, hfind, hmid⟩ := Option.bind_eq_some_iff.mp hf
      have hcomplete := (h.inner f (List.mem_of_find?_eq_some hfind)).complete hmid
      have hf : f.mapContainer (Container.replaceAt inner rest) = f := by
        cases f with
        | subProcess a t es ls as =>
          cases hmid
          rw [FlowElement.mapContainer, ih hcomplete hd]
        | _ => cases hmid
      rw [Container.replaceAt, Container.mk.injEq]
      refine ⟨(List.map_congr_left fun e he => ?_).trans (List.map_id _), rfl⟩
      split
      · rename_i hid
        rw [eq_of_step h.wired hfind he hid, hf]
        rfl
      · rfl

/-- **Where a container is replaced by one that counts as equal, the outer ones count as equal.** -/
theorem same_replaceAt (h : c.Complete) {path : List Id}
    (hd : c.descend? path = some inner) (hsame : inner.same new = true) :
    c.same (replaceAt new path c) = true := by
  induction path generalizing c with
  | nil =>
    cases hd
    exact hsame
  | cons step rest ih =>
    rw [Container.descend?] at hd
    cases hf : (c.find? step).bind FlowElement.container? with
    | none =>
      rw [hf] at hd
      cases hd
    | some mid =>
      rw [hf] at hd
      obtain ⟨f, hfind, hmid⟩ := Option.bind_eq_some_iff.mp hf
      have hcomplete := (h.inner f (List.mem_of_find?_eq_some hfind)).complete hmid
      refine (same_iff h.wired.nodup).mpr ⟨.of_forall₂ ?_, rfl⟩
      refine List.forall₂_map_right_iff.mpr (List.forall₂_same.mpr fun e he => ?_)
      split
      · rename_i hid
        rw [eq_of_step h.wired hfind he hid]
        exact FlowElement.same_mapContainer hmid (ih hcomplete hd)
      · exact FlowElement.same_self (h.inner e he)

end Container

namespace Scope

variable {s t u : Scope} {path : List Id} {k new : Container}

/-- The parts of a scope make up the scope. -/
theorem mk_parts (s : Scope) : ⟨s.header, s.roots, s.relationships, s.imports, s.extensions,
    s.registry⟩ = s := by
  cases s
  rfl

theorem replaceRoot_self (hnd : (s.roots.map Root.id).Nodup) {r : Root} (hr : r ∈ s.roots) :
    s.replaceRoot r = s := by
  have hroots : s.roots.map (fun q => if q.id = r.id then r else q) = s.roots := by
    refine (List.map_congr_left fun q hq => ?_).trans (List.map_id _)
    split
    · rename_i hid
      exact List.inj_on_of_nodup_map hnd hr hq hid.symm
    · rfl
  rw [replaceRoot, hroots, mk_parts]

theorem replaceContainer_self (h : Reachable s) (hat : s.containerAt? path = some k) :
    s.replaceContainer path k = s := by
  obtain ⟨top, rest, p, rfl, hp, hd⟩ := containerAt?_eq_some_iff.mp hat
  obtain ⟨hmem, -⟩ := root?_mem hp
  have hself := Container.replaceAt_self (Process.assembled_iff.mp (h.complete _ hmem)) hd
  rw [replaceContainer_of_process hp, hself]
  exact replaceRoot_self h.agrees.nodup_roots hmem

/-- Putting the container that was there back in its place leads back. -/
theorem replaceContainer_back (h : Reachable s) (hat : s.containerAt? path = some k)
    (new : Container) : (s.replaceContainer path new).replaceContainer path k = s := by
  have hboth := replaceContainer_replaceContainer hat new k []
  rw [List.append_nil, Container.replaceAt] at hboth
  rw [hboth, replaceContainer_self h hat]

/-! ## Scopes that count as equal -/

theorem same_self (h : Reachable s) : s.same s = true := by
  induction s using imports_induction with
  | step s ih =>
    have hroots : ∀ r ∈ s.roots, r.same r = true := fun r hr => Root.same_self (h.complete r hr)
    have himports : List.Forall₂ (fun i j => sameImport i j = true) s.imports s.imports := by
      refine List.forall₂_same.mpr fun i hi => ?_
      cases i with
      | unbound d => simp [sameImport]
      | bound d stamp t =>
        have ht : t.same t = true :=
          ih t (List.mem_filterMap.mpr ⟨_, hi, rfl⟩) (h.of_import hi rfl)
        simp [sameImport, ht]
    exact (same_iff h.agrees.nodup_roots).mpr ⟨rfl, .refl hroots, rfl, himports, rfl⟩

/-- Scopes of reachable parts count as equal if root elements agree up to order and all else is the
same. -/
theorem same_of_rearranged (h : Reachable s) (hnd : (t.roots.map Root.id).Nodup)
    (hroots : Rearranged (fun r q => Root.same r q = true) t.roots u.roots)
    (ht : t.header = s.header ∧ t.relationships = s.relationships ∧ t.imports = s.imports ∧
      t.extensions = s.extensions)
    (hu : u.header = s.header ∧ u.relationships = s.relationships ∧ u.imports = s.imports ∧
      u.extensions = s.extensions) : t.same u = true := by
  obtain ⟨-, -, -, himports, -⟩ := (same_iff h.agrees.nodup_roots).mp (same_self h)
  obtain ⟨hheader, hrelationships, hi, hextensions⟩ := ht
  obtain ⟨hheader', hrelationships', hi', hextensions'⟩ := hu
  refine (same_iff hnd).mpr ⟨?_, hroots, ?_, ?_, ?_⟩
  · rw [hheader, hheader']
  · rw [hrelationships, hrelationships']
  · rwa [hi, hi']
  · rw [hextensions, hextensions']

/-- The order of root elements does not count. -/
theorem same_of_perm (h : Reachable s) (hp : s.roots.Perm t.roots)
    (ht : t.header = s.header ∧ t.relationships = s.relationships ∧ t.imports = s.imports ∧
      t.extensions = s.extensions) : s.same t = true ∧ t.same s = true := by
  have hself : Rearranged (fun r q => Root.same r q = true) s.roots s.roots :=
    .refl fun r hr => Root.same_self (h.complete r hr)
  have hnd := (hp.map Root.id).nodup_iff.mp h.agrees.nodup_roots
  constructor
  · exact same_of_rearranged h h.agrees.nodup_roots (hself.trans_perm hp) ⟨rfl, rfl, rfl, rfl⟩ ht
  · exact same_of_rearranged h hnd (.perm_trans hp.symm hself) ht ⟨rfl, rfl, rfl, rfl⟩

/-- **Where a container is replaced by one that counts as equal, the scope counts as equal.** -/
theorem same_replaceContainer (h : Reachable s) (hat : s.containerAt? path = some k)
    (hsame : k.same new = true) (registry : Registry) :
    s.same { s.replaceContainer path new with registry } = true := by
  obtain ⟨top, rest, p, rfl, hp, hd⟩ := containerAt?_eq_some_iff.mp hat
  obtain ⟨hmem, -⟩ := root?_mem hp
  have hcontents := Container.same_replaceAt (Process.assembled_iff.mp (h.complete _ hmem)) hd hsame
  rw [replaceContainer_of_process hp]
  refine same_of_rearranged h h.agrees.nodup_roots ?_ ⟨rfl, rfl, rfl, rfl⟩ ⟨rfl, rfl, rfl, rfl⟩
  refine .of_forall₂ (List.forall₂_map_right_iff.mpr (List.forall₂_same.mpr fun r hr => ?_))
  split
  · rename_i hid
    have hr : r = .process p := List.inj_on_of_nodup_map h.agrees.nodup_roots hr hmem hid
    rw [hr]
    show Process.same _ _ = true
    rw [Process.same, hcontents]
    simp
  · exact Root.same_self (h.complete r hr)

/-! ## Registrations -/

/-- Listed flows do not count where a tree is taken out of a registry. -/
theorem unregister_foldl_attach (r : Registry) (flows : List SequenceFlow) (e : FlowElement) :
    r.unregister (.flowElement (flows.foldl .attach e)) = r.unregister (.flowElement e) := by
  have hids (x : FlowElement) : (Element.flowElement x).subtree.map Element.id =
      ((Element.flowElement x).slots none).map Prod.fst := by
    rw [Element.slots, Registry.map_fst_slot, Element.map_id_placed_eq_subtree]
  rw [Registry.unregister_eq, Registry.unregister_eq, hids, hids, FlowElement.slots_foldl_attach]

/-- **What was taken out can be registered again**, and then the registry is what it was, apart from
the order. -/
theorem Removes.register_again (h : s.Agrees) {owner : Option Id} {e : Element}
    (hr : s.Removes owner e t) :
    ∃ registry, t.registry.register e owner = .ok registry ∧ s.registry.Same registry := by
  have ht := hr.agrees h
  have hid : t.id = s.id := by rw [id, id, hr.header]
  have hslots : s.slots.Perm ((t.placed ++ e.placed owner).map Placed.slot) := by
    rw [List.map_append]
    exact hr.slots
  have hids : (s.placed.map Placed.id).Perm ((t.placed ++ e.placed owner).map Placed.id) := by
    rw [← Registry.map_fst_slot, ← Registry.map_fst_slot]
    exact hslots.map Prod.fst
  have hfree : ∀ p ∈ e.placed owner, p.id ∉ t.registry.reserved := by
    intro p hp hmem
    rw [ht.reserved, hid, List.mem_singleton] at hmem
    refine h.id_not_mem (hmem ▸ hids.mem_iff.mpr (List.mem_map_of_mem ?_))
    exact List.mem_append_right _ hp
  refine ⟨_, ht.records.registerAll_of_fresh (hids.nodup_iff.mp h.records.nodup) hfree, ?_, ?_⟩
  · refine h.records.slots.trans (hslots.trans ?_)
    rw [List.map_append]
    exact ht.records.slots.symm.append_right _
  · rw [h.reserved, ht.reserved, hid]

/-! ## Addition, then removal -/

/-- **Taking out what was just added leads back to the same scope.** -/
theorem removeFlowElement_of_added (h : Reachable s) {owner id : Id} {e : FlowElement}
    (run : addFlowElement owner e s = .ok id t) :
    id = e.id ∧ ∃ k, s.contents? owner = some k ∧
      ((e.sequenceFlow?.isSome = true → ¬ k.IsListed e.id) →
        removeFlowElement e.id t = .ok (e.mapEdges fun edges => edges.completed e.id k.sequenceFlows)
          s) := by
  have ht := h.agrees.of_addFlowElement run
  obtain ⟨rfl, path, x, k, k', registry, hx, hid, hk, hins, hreg, rfl⟩ :=
    (addFlowElement_eq_ok_iff h.agrees).mp run
  have hat := h.agrees.containerAt?_eq hx hk
  have hcomplete := h.complete.containerAt? hat
  refine ⟨rfl, k, h.agrees.contents?_eq_some_iff.mpr ⟨path, x, hx, hid, hk⟩, fun hnew => ?_⟩
  -- the container with the element stands where the container without it stood
  obtain ⟨y, hy, hyk⟩ := exists_of_containerAt? (s := { s.replaceContainer path k' with registry })
    (containerAt?_replaceContainer k' hat)
  have hremove := Container.remove?_insert hins hnew
  have hreturned : k.sequenceFlows.foldl .attach e =
      e.mapEdges fun edges => edges.completed e.id k.sequenceFlows := by
    rw [FlowElement.foldl_attach_eq]
    congr 1
    funext edges
    exact Edges.foldl_attach_eq_completed hcomplete.wired.nodup_flows
  have hregistry : (registry.unregister (.flowElement (k.sequenceFlows.foldl .attach e))).2 =
      s.registry := by
    obtain ⟨hadmits, rfl⟩ := Registry.register_eq_ok_iff.mp hreg
    rw [unregister_foldl_attach, Registry.unregister_registered hadmits]
  have hback := replaceContainer_back h hat k'
  rw [← hreturned]
  refine (removeFlowElement_eq_ok_iff ht).mpr ⟨path, y, k', k, hy, hyk, hremove, ?_⟩
  rw [replaceContainer_with_registry, hback, hregistry]
  exact (mk_parts s).symm

/-- Taking out the root element that was just added leads back to the same scope. -/
theorem removeRoot_of_added (h : Reachable s) {r : Root} {id : Id}
    (run : addRoot r s = .ok id t) : removeRoot id t = .ok (some r) s := by
  rw [addRoot_run] at run
  cases hreg : s.registry.register (.root r) none with
  | error refusal =>
    rw [hreg] at run
    cases run
  | ok registry =>
    rw [hreg] at run
    cases run
    obtain ⟨hadmits, rfl⟩ := Registry.register_eq_ok_iff.mp hreg
    have hother : ∀ q ∈ s.roots, q.id ≠ r.id := by
      intro q hq hid
      have hhead := Element.mem_placed_self (.root r) none
      have hfree := (hadmits.2 (.root r) (List.mem_map.mpr ⟨_, hhead, rfl⟩)).1
      have hslot : s.registry.slot? (Element.root q).id = some _ :=
        h.agrees.records.slot?_eq (mem_placed_of_topLevel (mem_topLevel_root.mpr hq))
      rw [Element.id_root, hid, ← Element.id_root, hfree] at hslot
      cases hslot
    obtain ⟨hlast, herase⟩ := find?_eraseP_concat hother
    rw [removeRoot, root?, hlast]
    simp only [herase, Registry.unregister_registered hadmits, mk_parts]

/-! ## Removal, then addition -/

/-- The scope that a successful edit leads to is reachable. -/
theorem reachable_of_run (h : Reachable s) {α : Type} {edit : Edit α} {f : α → Outcome} {c : Change}
    (hc : c.perform = f <$> edit) (assembled : c.Assembled) (bound : c.boundScope? = none) {a : α}
    (run : edit s = .ok a t) : Reachable t := by
  have hafter : c.after s = t := by
    refine Change.after_of_leaves (P := (· = t)) ?_
    rw [hc]
    refine Leaves.map f ?_
    rw [Leaves, run]
  rw [← hafter]
  refine .after c assembled (fun u hu => ?_) h
  rw [bound] at hu
  cases hu

/-- **A node that was just taken out can be added again where it stood**, and the scope counts as
equal to what it was. -/
theorem addFlowElement_of_removed (h : Reachable s) {id : Id} {e : FlowElement}
    (run : removeFlowElement id s = .ok e t) (hnode : e.sequenceFlow? = none) :
    ∃ owner u, (s.registry.slot? id).bind Slot.owner = some owner ∧
      addFlowElement owner e t = .ok id u ∧ u.same s = true ∧ s.same u = true ∧
        s.registry.Same u.registry := by
  have ht : Reachable t :=
    reachable_of_run h (c := .removeFlowElement id) rfl trivial rfl run
  obtain ⟨path, x, k, k', hx, hk, hrem, rfl⟩ := (removeFlowElement_eq_ok_iff h.agrees).mp run
  have hat := h.agrees.containerAt?_eq hx hk
  have hcomplete := h.complete.containerAt? hat
  obtain ⟨hfind, -⟩ := Container.remove?_cases hrem
  obtain rfl : e.id = id := by simpa using List.find?_some hfind
  have hmem := List.mem_of_find?_eq_some hfind
  -- the element comes last in the container, and the container counts as equal
  obtain ⟨k'', hins, -, hperm, hls⟩ := Container.insert_remove? hcomplete.wired hrem hnode
  obtain ⟨hsame, hsame'⟩ := Container.same_of_perm hcomplete hperm hls
  -- it is registered again under the owner of the container
  obtain ⟨registry, hreg, hregistry⟩ :=
    (h.agrees.removes_from_container hx.getLast? hat hrem).register_again h.agrees
  obtain ⟨y, hy, hyk⟩ := exists_of_containerAt?
    (s := { s.replaceContainer path k' with
      registry := (s.registry.unregister (.flowElement e)).2 }) (containerAt?_replaceContainer k' hat)
  have hyid : y.id = x.id := by
    have hlast := hy.getLast?
    rw [hx.getLast?, Option.some.injEq] at hlast
    exact hlast.symm
  have hadd := (addFlowElement_eq_ok_iff ht.agrees).mpr
    ⟨rfl, path, y, k', k'', registry, hy, hyid, hyk, hins, hreg, rfl⟩
  have hu := reachable_of_run ht (c := .addFlowElement x.id e) rfl (hcomplete.inner e hmem) rfl hadd
  have hplaced : { replaceContainer { s.replaceContainer path k' with
      registry := (s.registry.unregister (.flowElement e)).2 } path k'' with registry } =
        { s.replaceContainer path k'' with registry } := by
    have hboth := replaceContainer_replaceContainer hat k' k'' []
    rw [List.append_nil, Container.replaceAt] at hboth
    rw [replaceContainer_with_registry, hboth]
  rw [hplaced] at hadd hu
  refine ⟨x.id, _, ?_, hadd, ?_, same_replaceContainer h hat hsame registry, hregistry⟩
  · rw [h.agrees.slot?_of_mem_elements hx hk hmem]
    rfl
  · have hat' := containerAt?_replaceContainer k'' hat
    have hback := same_replaceContainer hu (k := k'') hat' hsame' s.registry
    rw [replaceContainer_with_registry, replaceContainer_back h hat] at hback
    change Scope.same _ ⟨s.header, s.roots, s.relationships, s.imports, s.extensions, s.registry⟩ = _
      at hback
    rwa [mk_parts] at hback

/-- A root element that was just taken out can be added again, and the scope counts as equal to what
it was. -/
theorem addRoot_of_removed (h : Reachable s) {id : Id} {r : Root}
    (run : removeRoot id s = .ok (some r) t) :
    ∃ u, addRoot r t = .ok id u ∧ u.same s = true ∧ s.same u = true ∧
      s.registry.Same u.registry := by
  rcases removeRoot_spec s id with ⟨-, hspec⟩ | ⟨r', t', hr, hspec, hremoves, hroots⟩
  · rw [run] at hspec
    cases hspec
  · rw [run] at hspec
    cases hspec
    obtain ⟨registry, hreg, hregistry⟩ := hremoves.register_again h.agrees
    have hperm : s.roots.Perm (t.roots ++ [r]) := by
      rw [hroots]
      exact (perm_cons_eraseP_of_find? hr).trans (List.perm_append_singleton r _).symm
    have hadd : addRoot r t = .ok id { t with registry, roots := t.roots ++ [r] } := by
      rw [addRoot_run, hreg, (root?_mem hr).2]
    have hrelationships : t.relationships = s.relationships := by
      rw [removeRoot, hr] at run
      cases run
      rfl
    obtain ⟨hsame, hsame'⟩ := same_of_perm h (t := { t with registry, roots := t.roots ++ [r] }) hperm
      ⟨hremoves.header, hrelationships, hremoves.imports, hremoves.extensions⟩
    exact ⟨_, hadd, hsame', hsame, hregistry⟩

end Scope

open Scope

/-- **Adding and removing undo each other**, in every scope that edits lead to. What was just added
is taken out again and leaves the scope exactly as it was, with the flows listed by now at the
element that comes back; a flow must not have been listed anywhere before it came. What was just
taken out can be added again and leaves a scope that counts as equal and has the same registrations;
a flow would come back last and not be listed where it was before. -/
theorem Reachable.add_remove_undo {s : Scope} (h : Reachable s) :
    (∀ owner e id t, addFlowElement owner e s = .ok id t →
      id = e.id ∧ ∃ k, s.contents? owner = some k ∧
        ((e.sequenceFlow?.isSome = true → ¬ k.IsListed e.id) →
          removeFlowElement e.id t = .ok (e.mapEdges fun edges => edges.completed e.id k.sequenceFlows)
            s)) ∧
      (∀ r id t, addRoot r s = .ok id t → removeRoot id t = .ok (some r) s) ∧
      (∀ id r t, removeRoot id s = .ok (some r) t →
        ∃ u, addRoot r t = .ok id u ∧ u.same s = true ∧ s.same u = true ∧
          s.registry.Same u.registry) ∧
      ∀ id e t, removeFlowElement id s = .ok e t → e.sequenceFlow? = none →
        ∃ owner u, (s.registry.slot? id).bind Slot.owner = some owner ∧
          addFlowElement owner e t = .ok id u ∧ u.same s = true ∧ s.same u = true ∧
            s.registry.Same u.registry :=
  ⟨fun _ _ _ _ run => removeFlowElement_of_added h run,
    fun _ _ _ run => removeRoot_of_added h run,
    fun _ _ _ run => addRoot_of_removed h run,
    fun _ _ _ run hnode => addFlowElement_of_removed h run hnode⟩

namespace Scope

/-- A task in a sub-process in a process. -/
def housing : Scope :=
  (Change.addFlowElement ⟨"sub"⟩ (.task (.bare ⟨"a"⟩) .plain)).after <|
    (Change.addFlowElement ⟨"p"⟩ (.subProcess (.bare ⟨"sub"⟩) false [] [] [])).after processed

theorem housing_reachable : Reachable housing :=
  .after _ (.task _ _) nofun <|
    .after _ (.subProcess _ _ _ (List.forall_mem_nil _) (c := ⟨[], []⟩) rfl) nofun <|
      .after _ ⟨[], [], nofun, rfl⟩ nofun (.fresh _ _)

end Scope

/-- A flow that comes to the task and goes again, and the sub-process that goes with its contents
and comes back. -/
theorem Reachable.add_remove_undo_housing :
    let flow : FlowElement := .sequenceFlow ⟨⟨.bare ⟨"f"⟩, none, []⟩, ⟨⟨"a"⟩⟩, ⟨⟨"a"⟩⟩, none, none⟩
    (∃ t, addFlowElement ⟨"sub"⟩ flow housing = .ok ⟨"f"⟩ t ∧
      removeFlowElement ⟨"f"⟩ t = .ok flow housing) ∧
    ∃ e t u, removeFlowElement ⟨"sub"⟩ housing = .ok e t ∧ t.registry.contains ⟨"a"⟩ = false ∧
      addFlowElement ⟨"p"⟩ e t = .ok ⟨"sub"⟩ u ∧ u.same housing = true ∧
        housing.registry.Same u.registry := by
  intro flow
  obtain ⟨added, -, -, removed⟩ := Reachable.add_remove_undo housing_reachable
  constructor
  · obtain ⟨t, run⟩ : ∃ t, addFlowElement ⟨"sub"⟩ flow housing = .ok ⟨"f"⟩ t := ⟨_, rfl⟩
    obtain ⟨-, k, hk, hback⟩ := added _ _ _ _ run
    have hcontents : housing.contents? ⟨"sub"⟩ = some ⟨[.task (.bare ⟨"a"⟩) .plain], []⟩ := rfl
    rw [hk, Option.some.injEq] at hcontents
    subst hcontents
    refine ⟨t, run, hback fun _ => ?_⟩
    rintro ⟨e, he, edges, hedges, hlisted⟩
    rw [List.mem_singleton.mp he] at hedges
    cases hedges
    simp [Activity.bare, Edges.none] at hlisted
  · obtain ⟨e, t, run, hgone, hnode⟩ : ∃ e t, removeFlowElement ⟨"sub"⟩ housing = .ok e t ∧
        t.registry.contains ⟨"a"⟩ = false ∧ e.sequenceFlow? = none := ⟨_, _, rfl, rfl, rfl⟩
    obtain ⟨owner, u, howner, hadd, hsame, -, hregistry⟩ := removed _ _ _ run hnode
    have hp : (housing.registry.slot? ⟨"sub"⟩).bind Slot.owner = some ⟨"p"⟩ := rfl
    rw [hp, Option.some.injEq] at howner
    subst howner
    exact ⟨e, t, u, run, hgone, hadd, hsame, hregistry⟩

end BpmnModel
