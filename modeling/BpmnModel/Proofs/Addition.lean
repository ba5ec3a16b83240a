import BpmnModel.Proofs.Clashes
import BpmnModel.Proofs.EdgeOrder
import BpmnModel.Proofs.Namesakes

/-!
# What an addition leaves alone

An element that is added to a container changes the container and those around it, and nothing else:
a flow is listed at its ends in the same container, and no element elsewhere can tell the
difference, whatever identifiers its own flows mention.

* `Element.mapContents`, `Element.beside` — an element with other contents, and an element as it
  stands once another one came into its container.
* `Scope.OwnerPath.within`, `Scope.OwnerPath.beside` — where a container is replaced, what stands on
  the way to it and what stands anywhere else.
* `Reachable.grows_under` — the frame of an addition.
-/

namespace BpmnModel

theorem FlowElement.children_mapEdges (f : Edges → Edges) (e : FlowElement) :
    (Element.flowElement (e.mapEdges f)).children = (Element.flowElement e).children := by
  cases e <;> rfl

/-- What a node lists once a flow came: the flow comes last where it touches the node, unless it is
listed there. -/
theorem Edges.attach_eq (node : Id) (edges : Edges) (flow : SequenceFlow) :
    attach node edges flow =
      { incoming := if flow.target.id = node ∧ ⟨flow.id⟩ ∉ edges.incoming then
          edges.incoming ++ [⟨flow.id⟩] else edges.incoming
        outgoing := if flow.source.id = node ∧ ⟨flow.id⟩ ∉ edges.outgoing then
          edges.outgoing ++ [⟨flow.id⟩] else edges.outgoing } := by
  unfold attach attachOutgoing attachIncoming
  by_cases hs : flow.source.id = node <;> by_cases ht : flow.target.id = node <;>
    by_cases ho : ⟨flow.id⟩ ∈ edges.outgoing <;> by_cases hi : ⟨flow.id⟩ ∈ edges.incoming <;>
      simp [hs, ht, ho, hi]

theorem FlowElement.attach_of_apart {e : FlowElement} {flow : SequenceFlow}
    (hs : flow.source.id ≠ e.id) (ht : flow.target.id ≠ e.id) : e.attach flow = e := by
  refine attach_eq_self_iff.mpr fun edges _ => ⟨fun heq => ?_, fun heq => ?_⟩
  · exact absurd heq hs
  · exact absurd heq ht

namespace Element

/-- Changes the contents of a process or sub-process. -/
def mapContents (f : Container → Container) : Element → Element
  | root (.process p) => root (.process { p with container := f p.container })
  | flowElement e => flowElement (e.mapContainer f)
  | e => e

/-- The element as it stands once `new` came into its container: a node that `new` touches lists
it. -/
def beside (new : FlowElement) : Element → Element
  | flowElement e =>
    match new.sequenceFlow? with
    | some flow => flowElement (e.attach flow)
    | none => flowElement e
  | e => e

variable {e c : Element} {k : Container} {new : FlowElement}

@[simp]
theorem id_mapContents (f : Container → Container) (e : Element) : (e.mapContents f).id = e.id := by
  cases e with
  | root r => cases r <;> rfl
  | flowElement e => exact e.id_mapContainer f
  | _ => rfl

theorem container?_mapContents (f : Container → Container) (e : Element) :
    (e.mapContents f).container? = e.container?.map f := by
  cases e with
  | root r => cases r <;> rfl
  | flowElement e => exact e.container?_mapContainer f
  | _ => rfl

/-- Where there are no contents nothing changes. -/
theorem mapContents_of_container?_eq_none (h : e.container? = none) (f : Container → Container) :
    e.mapContents f = e := by
  cases e with
  | root r =>
    cases r with
    | process p => cases h
    | _ => rfl
  | flowElement e =>
    cases e with
    | subProcess a t es ls as => cases h
    | _ => rfl
  | _ => rfl

/-- Besides its contents a process or sub-process owns artifacts. -/
theorem children_of_container? (h : e.container? = some k) :
    ∃ artifacts : List Artifact, e.children = k.owned ++ artifacts.map artifact ∧
      ∀ f, (e.mapContents f).children = (f k).owned ++ artifacts.map artifact := by
  cases e with
  | root r =>
    cases r with
    | process p =>
      cases h
      exact ⟨p.artifacts, rfl, fun f => rfl⟩
    | _ => cases h
  | flowElement e =>
    cases e with
    | subProcess a t es ls as =>
      cases h
      exact ⟨as, rfl, fun f => rfl⟩
    | _ => cases h
  | _ => cases h

/-- What becomes of a child of an element when the contents of the element change. -/
theorem mem_children_mapContents {f : Container → Container} {g : Element → Element}
    (howned : ∀ m, e.container? = some m → ∀ x ∈ m.owned, g x ∈ (f m).owned)
    (hartifact : ∀ a, g (artifact a) = artifact a) (hleaf : e.container? = none → g c = c)
    (hc : c ∈ e.children) : g c ∈ (e.mapContents f).children := by
  cases hm : e.container? with
  | none =>
    rw [mapContents_of_container?_eq_none hm, hleaf hm]
    exact hc
  | some m =>
    obtain ⟨artifacts, hbefore, hafter⟩ := children_of_container? hm
    rw [hafter]
    rw [hbefore] at hc
    rcases List.mem_append.mp hc with hc | hc
    · exact List.mem_append_left _ (howned m hm c hc)
    · obtain ⟨a, ha, rfl⟩ := List.mem_map.mp hc
      rw [hartifact]
      exact List.mem_append_right _ (List.mem_map_of_mem ha)

@[simp]
theorem id_beside (new : FlowElement) (e : Element) : (e.beside new).id = e.id := by
  cases e with
  | flowElement e =>
    rw [beside]
    cases new.sequenceFlow? with
    | none => rfl
    | some flow => exact e.id_attach flow
  | _ => rfl

theorem children_beside (new : FlowElement) (e : Element) :
    (e.beside new).children = e.children := by
  cases e with
  | flowElement e =>
    rw [beside]
    cases new.sequenceFlow? with
    | none => rfl
    | some flow => exact e.children_mapEdges _
  | _ => rfl

theorem container?_beside (new : FlowElement) (e : Element) :
    (e.beside new).container? = e.container? := by
  cases e with
  | flowElement e =>
    rw [beside]
    cases new.sequenceFlow? with
    | none => rfl
    | some flow => exact e.container?_mapEdges _
  | _ => rfl

end Element

/-- What a container owned is there after an insertion, and may list what was inserted. -/
theorem Container.beside_mem_owned {c c' : Container} {e : FlowElement} (hins : c.insert e = .ok c')
    {x : Element} (hx : x ∈ c.owned) : x.beside e ∈ c'.owned := by
  obtain ⟨-, ⟨flow, rfl, rfl⟩ | ⟨hnode, rfl⟩⟩ := insert_cases hins
  · rcases List.mem_append.mp hx with hx | hx
    · obtain ⟨y, hy, rfl⟩ := List.mem_map.mp hx
      refine List.mem_append_left _ (List.mem_map_of_mem (f := Element.flowElement) ?_)
      exact List.mem_append_left _ (List.mem_map_of_mem hy)
    · obtain ⟨y, hy, rfl⟩ := List.mem_map.mp hx
      exact List.mem_append_right _ (List.mem_map_of_mem hy)
  · rcases List.mem_append.mp hx with hx | hx
    · obtain ⟨y, hy, rfl⟩ := List.mem_map.mp hx
      rw [Element.beside, hnode]
      refine List.mem_append_left _ (List.mem_map_of_mem ?_)
      exact List.mem_append_left _ hy
    · obtain ⟨y, hy, rfl⟩ := List.mem_map.mp hx
      exact List.mem_append_right _ (List.mem_map_of_mem hy)

/-- Where a container within is replaced, the element on the way to it has other contents and the
elements beside it are as they were. -/
theorem Container.mem_owned_replaceAt {c : Container} (new : Container) (step : Id) (rest : List Id)
    {x : Element} (hx : x ∈ c.owned) :
    (if x.id = step then x.mapContents (replaceAt new rest) else x) ∈
      (replaceAt new (step :: rest) c).owned := by
  rcases List.mem_append.mp hx with hx | hx
  · obtain ⟨e, he, rfl⟩ := List.mem_map.mp hx
    refine List.mem_append_left _ (List.mem_map.mpr ?_)
    refine ⟨if e.id = step then e.mapContainer (replaceAt new rest) else e,
      List.mem_map_of_mem he, ?_⟩
    show Element.flowElement (if e.id = step then _ else _) = if e.id = step then _ else _
    split <;> rfl
  · obtain ⟨l, hl, rfl⟩ := List.mem_map.mp hx
    refine List.mem_append_right _ (List.mem_map.mpr ⟨l, hl, ?_⟩)
    split <;> rfl

namespace Scope

variable {s t : Scope} {path p : List Id} {k new : Container} {x : Element}

/-! ## Paths of owners -/

theorem OwnerPath.congr (h : s.OwnerPath p x) (htop : t.topLevel = s.topLevel) :
    t.OwnerPath p x := by
  induction h with
  | top he => exact .top (htop ▸ he)
  | child above hc ih => exact ih.child hc

/-- Everything on the path of an element has the path that leads to it. -/
theorem OwnerPath.exists_prefix (h : s.OwnerPath path x) {id : Id} (hid : id ∈ path) :
    ∃ p rest y, path = p ++ rest ∧ s.OwnerPath p y ∧ y.id = id := by
  induction h with
  | @top e he =>
    rw [List.mem_singleton] at hid
    exact ⟨[e.id], [], e, rfl, .top he, hid.symm⟩
  | @child path e c above hc ih =>
    rcases List.mem_append.mp hid with hid | hid
    · obtain ⟨p, rest, y, rfl, hy, hyid⟩ := ih hid
      exact ⟨p, rest ++ [c.id], y, List.append_assoc .., hy, hyid⟩
    · rw [List.mem_singleton] at hid
      exact ⟨path ++ [c.id], [], c, (List.append_nil _).symm, above.child hc, hid.symm⟩

theorem OwnerPath.id_mem_of_prefix (h : s.OwnerPath p x) (hp : p <+: path) : x.id ∈ path :=
  hp.subset (List.mem_of_getLast? h.getLast?)

/-- The path of what an element owns is its own path and one step more. -/
theorem Agrees.dropLast_eq_iff (h : s.Agrees) {y : Element} (hy : s.OwnerPath path y)
    (hx : s.OwnerPath p x) :
    p.dropLast = path ↔ (s.registry.slot? x.id).bind Slot.owner = some y.id := by
  cases hx with
  | top he =>
    rw [show s.registry.slot? x.id = _ from h.records.slot?_eq (mem_placed_of_topLevel he)]
    constructor
    · intro hp
      exact absurd hp.symm hy.ne_nil
    · intro howner
      cases howner
  | @child p z _ above hc =>
    obtain ⟨o, ho⟩ := above.mem_placed
    rw [show s.registry.slot? x.id = _ from h.records.slot?_eq (child_mem_placed ho hc),
      List.dropLast_concat, Option.bind_some, Option.some.injEq]
    constructor
    · rintro rfl
      have hlast := above.getLast?
      rw [hy.getLast?, Option.some.injEq] at hlast
      exact hlast.symm
    · intro hid
      rw [← h.records.path_eq above, ← h.records.path_eq hy, hid]

/-! ## Replaced containers -/

/-- **On the way to a container that is replaced, contents change and nothing else.** -/
theorem OwnerPath.within (h : s.Agrees) (hat : s.containerAt? path = some k)
    (hx : s.OwnerPath p x) {rest : List Id} (hp : path = p ++ rest) (new : Container) :
    (s.replaceContainer path new).OwnerPath p (x.mapContents (Container.replaceAt new rest)) := by
  induction hx generalizing rest with
  | @top e he =>
    obtain ⟨top, below, q, heq, hq, -⟩ := containerAt?_eq_some_iff.mp hat
    obtain ⟨rfl, rfl⟩ := List.cons.inj (hp.symm.trans heq)
    have hroot : e = .root (.process q) :=
      h.eq_of_id (mem_placed_of_topLevel he)
        (mem_placed_of_topLevel (mem_topLevel_root.mpr (root?_mem hq).1)) (root?_mem hq).2.symm
    subst hroot
    rw [heq, replaceContainer_of_process hq]
    let grown : Root := .process { q with container := new.replaceAt rest q.container }
    have hgrown : grown ∈ (s.replaceRoot grown).roots := mem_roots_replaceRoot hq
    exact .top (mem_topLevel_root.mpr hgrown)
  | @child p e c above hc ih =>
    have hparent := ih (hp.trans (List.append_assoc ..))
    have hmem := Element.mem_children_mapContents (f := Container.replaceAt new (c.id :: rest))
      (g := fun x => if x.id = c.id then x.mapContents (Container.replaceAt new rest) else x)
      (fun m _ x hx => Container.mem_owned_replaceAt new c.id rest hx)
      (fun a => by split <;> rfl)
      (fun hnone => by
        rw [if_pos rfl]
        exact Element.mapContents_of_container?_eq_none
          (Element.container?_of_mem_children hnone c hc) _)
      hc
    rw [if_pos rfl] at hmem
    rw [← c.id_mapContents (Container.replaceAt new rest)]
    exact hparent.child hmem

/-- **Away from a container that is replaced nothing changes**, apart from what the container owns
itself. -/
theorem OwnerPath.beside (h : s.Agrees) (hat : s.containerAt? path = some k) {e : FlowElement}
    (hins : k.insert e = .ok new) (hx : s.OwnerPath p x) (hp : ¬ p <+: path) :
    (s.replaceContainer path new).OwnerPath p (if p.dropLast = path then x.beside e else x) := by
  obtain ⟨top, below, q, hpath, hq, -⟩ := containerAt?_eq_some_iff.mp hat
  induction hx with
  | @top y hy =>
    have hne : ([y.id] : List Id).dropLast ≠ path := by
      rw [hpath]
      exact List.cons_ne_nil _ _ ∘ Eq.symm
    have htop : y.id ≠ top := by
      rintro rfl
      exact hp ⟨below, hpath.symm⟩
    rw [if_neg hne, hpath, replaceContainer_of_process hq]
    refine .top ?_
    rcases List.mem_append.mp hy with hy | hy
    · obtain ⟨r, hr, rfl⟩ := List.mem_map.mp hy
      refine mem_topLevel_root.mpr (List.mem_map.mpr ⟨r, hr, if_neg ?_⟩)
      intro heq
      exact htop ((Element.id_root r).trans (heq.trans (root?_mem hq).2))
    · exact List.mem_append_right _ hy
  | @child p y c above hc ih =>
    rw [List.dropLast_concat]
    by_cases hpre : p <+: path
    · obtain ⟨rest, hrest⟩ := hpre
      have hparent := above.within h hat hrest.symm new
      cases rest with
      | nil =>
        rw [List.append_nil] at hrest
        rw [if_pos hrest]
        obtain ⟨z, hz, hzk⟩ := exists_of_containerAt? hat
        have hzy : z = y := by
          obtain ⟨o, ho⟩ := hz.mem_placed
          obtain ⟨o', ho'⟩ := above.mem_placed
          have hlast := hz.getLast?
          rw [← hrest, above.getLast?, Option.some.injEq] at hlast
          exact h.eq_of_id ho ho' hlast.symm
        rw [hzy] at hzk
        have hmem := Element.mem_children_mapContents (f := Container.replaceAt new [])
          (g := Element.beside e)
          (fun m hm x hx => by
            rw [hzk, Option.some.injEq] at hm
            exact Container.beside_mem_owned hins (hm ▸ hx))
          (fun a => rfl)
          (fun hnone => by cases hnone.symm.trans hzk)
          hc
        rw [← c.id_beside e]
        exact hparent.child hmem
      | cons step rest =>
        have hne : p ≠ path := by
          intro heq
          have hlen := congrArg List.length hrest
          rw [heq, List.length_append, List.length_cons] at hlen
          omega
        have hstep : c.id ≠ step := by
          rintro rfl
          exact hp ⟨rest, by rw [List.append_assoc]; exact hrest⟩
        have hmem := Element.mem_children_mapContents
          (f := Container.replaceAt new (step :: rest))
          (g := fun x => if x.id = step then x.mapContents (Container.replaceAt new rest) else x)
          (fun m _ x hx => Container.mem_owned_replaceAt new step rest hx)
          (fun a => by split <;> rfl)
          (fun _ => if_neg hstep)
          hc
        rw [if_neg hstep] at hmem
        rw [if_neg hne]
        exact hparent.child hmem
    · have hne : p ≠ path := by
        rintro rfl
        exact hpre (List.prefix_refl p)
      rw [if_neg hne]
      refine (ih hpre).child ?_
      split
      · rwa [Element.children_beside]
      · exact hc

/-! ## What an addition changes -/

/-- The identifier is that of a node in the container of `owner` where the flow `e` starts or
ends. -/
def IsEnd (s : Scope) (owner : Id) (e : FlowElement) (id : Id) : Prop :=
  ∃ flow node, e = .sequenceFlow flow ∧ (flow.source.id = id ∨ flow.target.id = id) ∧
    s.get? id = some (.flowElement node) ∧ (s.registry.slot? id).bind Slot.owner = some owner

/-- What an addition under `owner` changes, and what it leaves alone. The owner and the owners above
it stand on its path in the registry. -/
structure GrowsUnder (s : Scope) (owner : Id) (e : FlowElement) (t : Scope) : Prop where
  /-- What is registered keeps its kind and its owner. -/
  kept : ∀ id slot, s.registry.slot? id = some slot → t.registry.slot? id = some slot
  /-- The identifiers of the tree of `e` come in, and no others. -/
  gained : ∀ id, t.registry.contains id = true ↔
    s.registry.contains id = true ∨ id ∈ (Element.flowElement e).subtree.map Element.id
  /-- None of them was registered before. -/
  fresh : ∀ id ∈ (Element.flowElement e).subtree.map Element.id, s.registry.contains id = false
  /-- An element stays as it is, unless it stands on the path or is an end of the flow. -/
  apart : ∀ id x, s.get? id = some x → id ∉ s.registry.path owner → ¬ s.IsEnd owner e id →
    t.get? id = some x
  /-- A node beside a flow lists it, last, where it touches it and does not list it yet. -/
  ends : ∀ flow, e = .sequenceFlow flow → ∀ id node, s.get? id = some (.flowElement node) →
    (s.registry.slot? id).bind Slot.owner = some owner →
      t.get? id = some (.flowElement (node.mapEdges fun edges =>
        { incoming := if flow.target.id = id ∧ ⟨flow.id⟩ ∉ edges.incoming then
            edges.incoming ++ [⟨flow.id⟩] else edges.incoming
          outgoing := if flow.source.id = id ∧ ⟨flow.id⟩ ∉ edges.outgoing then
            edges.outgoing ++ [⟨flow.id⟩] else edges.outgoing }))
  /-- On the path no element changes but in its contents. -/
  within : ∀ id x, s.get? id = some x → id ∈ s.registry.path owner →
    ∃ f, t.get? id = some (x.mapContents f)
  /-- The contents of all other containers stay as they are. -/
  contents : ∀ id k, s.contents? id = some k → id ∉ s.registry.path owner →
    t.contents? id = some k
  /-- The element comes last among those of its owner. -/
  order : ∃ k k', s.contents? owner = some k ∧ t.contents? owner = some k' ∧
    k'.elements.map FlowElement.id = k.elements.map FlowElement.id ++ [e.id] ∧
    k'.laneSets = k.laneSets
  /-- The root elements keep their places, and all but the first of the path stay as they are. -/
  roots : List.Forall₂ (fun r q => q.id = r.id ∧ (r.id ∉ s.registry.path owner → q = r))
    s.roots t.roots
  relationships : t.relationships = s.relationships
  imports : t.imports = s.imports
  extensions : t.extensions = s.extensions
  header : t.header = s.header

variable {owner id i : Id} {e : FlowElement}

/-- The registry takes in the tree of the element. -/
theorem gains_of_added (h : s.Agrees) (run : addFlowElement owner e s = .ok id t) :
    s.registry.Admits (.flowElement e) ∧
      s.registry.Gains (.flowElement e) (some owner) t.registry := by
  obtain ⟨-, path, y, k, k', registry, -, -, -, -, hreg, rfl⟩ :=
    (addFlowElement_eq_ok_iff h).mp run
  obtain ⟨hadmits, rfl⟩ := Registry.register_eq_ok_iff.mp hreg
  exact ⟨hadmits, Registry.gains_append hadmits (some owner)⟩

/-- What an identifier leads to after an addition. -/
theorem get?_of_added (h : s.Agrees) (run : addFlowElement owner e s = .ok id t)
    (hx : s.get? i = some x) (hi : i ∉ s.registry.path owner) :
    t.get? i = some
      (if (s.registry.slot? i).bind Slot.owner = some owner then x.beside e else x) := by
  have ht := h.of_addFlowElement run
  obtain ⟨-, path, y, k, k', registry, hy, rfl, hk, hins, -, rfl⟩ :=
    (addFlowElement_eq_ok_iff h).mp run
  obtain ⟨rfl, p, hp⟩ := h.get?_eq_some_iff.mp hx
  rw [h.records.path_eq hy] at hi
  have hstands := hp.beside h (h.containerAt?_eq hy hk) hins
    (fun hpre => hi (hp.id_mem_of_prefix hpre))
  simp only [h.dropLast_eq_iff hy hp] at hstands
  have hget := ht.get?_eq (OwnerPath.congr (t := { s.replaceContainer path k' with registry })
    hstands rfl)
  have hid : (if (s.registry.slot? x.id).bind Slot.owner = some y.id then x.beside e else x).id =
      x.id := by
    split
    · exact x.id_beside e
    · rfl
  rwa [hid] at hget

/-- What is owned by the owner itself is below the path. -/
theorem not_mem_path_of_owner (h : s.Agrees) (hx : s.get? i = some x)
    (howner : (s.registry.slot? i).bind Slot.owner = some owner) : i ∉ s.registry.path owner := by
  obtain ⟨rfl, p, hp⟩ := h.get?_eq_some_iff.mp hx
  cases hp with
  | top he =>
    rw [show s.registry.slot? x.id = _ from h.records.slot?_eq (mem_placed_of_topLevel he)] at howner
    cases howner
  | @child p y _ above hc =>
    obtain ⟨o, ho⟩ := above.mem_placed
    rw [show s.registry.slot? x.id = _ from h.records.slot?_eq (child_mem_placed ho hc),
      Option.bind_some, Option.some.injEq] at howner
    obtain rfl : y.id = owner := howner
    rw [h.records.path_eq above]
    intro hmem
    -- the path of the element would be a part of the path of its owner
    obtain ⟨p', rest, z, hp', hz, hzid⟩ := above.exists_prefix hmem
    have hlen := congrArg List.length ((h.records.path_eq hz).symm.trans
      ((congrArg s.registry.path hzid).trans (h.records.path_eq (above.child hc))))
    have hlen' := congrArg List.length hp'
    rw [List.length_append] at hlen hlen'
    rw [List.length_singleton] at hlen
    omega

/-- Only the ends of a flow can tell that it came. -/
theorem beside_of_not_end (hx : s.get? i = some x) (hid : x.id = i)
    (howner : (s.registry.slot? i).bind Slot.owner = some owner) (hend : ¬ s.IsEnd owner e i) :
    x.beside e = x := by
  cases x with
  | flowElement node =>
    cases hflow : e.sequenceFlow? with
    | none => rw [Element.beside, hflow]
    | some flow =>
      have he : e = .sequenceFlow flow := by
        cases e with
        | sequenceFlow f =>
          cases hflow
          rfl
        | _ => cases hflow
      have hid : node.id = i := hid
      have hs : flow.source.id ≠ node.id := fun heq =>
        hend ⟨flow, node, he, .inl (heq.trans hid), hx, howner⟩
      have ht : flow.target.id ≠ node.id := fun heq =>
        hend ⟨flow, node, he, .inr (heq.trans hid), hx, howner⟩
      rw [Element.beside, hflow]
      simp only [FlowElement.attach_of_apart hs ht]
  | _ => rfl

/-- The owner and those above it are what they were, apart from their contents. -/
theorem within_of_added (h : s.Agrees) (run : addFlowElement owner e s = .ok id t)
    (hx : s.get? i = some x) (hi : i ∈ s.registry.path owner) :
    ∃ f, t.get? i = some (x.mapContents f) := by
  have ht := h.of_addFlowElement run
  obtain ⟨-, path, y, k, k', registry, hy, rfl, hk, -, -, rfl⟩ :=
    (addFlowElement_eq_ok_iff h).mp run
  obtain ⟨rfl, -, -⟩ := h.get?_eq_some_iff.mp hx
  rw [h.records.path_eq hy] at hi
  obtain ⟨p, rest, z, hp, hz, hid⟩ := hy.exists_prefix hi
  have hzx : z = x := by
    have hgetz := h.get?_eq hz
    rw [hid, hx, Option.some.injEq] at hgetz
    exact hgetz.symm
  rw [hzx] at hz
  have hstands := hz.within h (h.containerAt?_eq hy hk) hp k'
  have hget := ht.get?_eq (OwnerPath.congr (t := { s.replaceContainer path k' with registry })
    hstands rfl)
  rw [x.id_mapContents] at hget
  exact ⟨_, hget⟩

/-- The element comes last among those of its owner. -/
theorem order_of_added (h : s.Agrees) (run : addFlowElement owner e s = .ok id t) :
    ∃ k k', s.contents? owner = some k ∧ t.contents? owner = some k' ∧
      k'.elements.map FlowElement.id = k.elements.map FlowElement.id ++ [e.id] ∧
      k'.laneSets = k.laneSets := by
  have ht := h.of_addFlowElement run
  obtain ⟨-, path, y, k, k', registry, hy, rfl, hk, hins, -, rfl⟩ :=
    (addFlowElement_eq_ok_iff h).mp run
  have hstands := hy.within h (h.containerAt?_eq hy hk) (List.append_nil path).symm k'
  have hcontents : (y.mapContents (Container.replaceAt k' [])).container? = some k' := by
    rw [Element.container?_mapContents, hk]
    rfl
  refine ⟨k, k', ?_, ?_, Container.map_id_insert hins, Container.laneSets_insert hins⟩
  · exact h.contents?_eq_some_iff.mpr ⟨path, y, hy, rfl, hk⟩
  · exact ht.contents?_eq_some_iff.mpr ⟨path, _, hstands.congr rfl, y.id_mapContents _, hcontents⟩

/-- The root elements keep their places, and only the one around the owner changes. -/
theorem roots_of_added (h : s.Agrees) (run : addFlowElement owner e s = .ok id t) :
    List.Forall₂ (fun r q : Root => q.id = r.id ∧ (r.id ∉ s.registry.path owner → q = r))
      s.roots t.roots := by
  obtain ⟨-, path, y, k, k', registry, hy, rfl, hk, -, -, rfl⟩ :=
    (addFlowElement_eq_ok_iff h).mp run
  obtain ⟨top, rest, q, hpath, hq, -⟩ :=
    containerAt?_eq_some_iff.mp (h.containerAt?_eq hy hk)
  rw [h.records.path_eq hy, hpath, replaceContainer_of_process hq]
  refine List.forall₂_map_right_iff.mpr (List.forall₂_same.mpr fun r hr => ?_)
  split
  · rename_i hid
    have htop : r.id = top := hid.trans (root?_mem hq).2
    exact ⟨hid.symm, fun hout => absurd (htop ▸ List.mem_cons_self) hout⟩
  · exact ⟨rfl, fun _ => rfl⟩

end Scope

open Scope

/-- **The frame of an addition**, in every scope that edits lead to: what was registered keeps its
place in the tree, and nothing changes but the contents of the owner and of those above it and the
lists of the nodes at which an added flow starts or ends. -/
theorem Reachable.grows_under {s t : Scope} (h : Reachable s) {owner id : Id} {e : FlowElement}
    (run : addFlowElement owner e s = .ok id t) : id = e.id ∧ s.GrowsUnder owner e t := by
  have hs := h.agrees
  obtain ⟨hadmits, hgains⟩ := gains_of_added hs run
  have hget {i : Id} {x : Element} := get?_of_added hs run (i := i) (x := x)
  have hrest : id = e.id ∧ t.relationships = s.relationships ∧ t.imports = s.imports ∧
      t.extensions = s.extensions ∧ t.header = s.header := by
    obtain ⟨hid, path, -, -, k', -, -, -, -, -, -, rfl⟩ := (addFlowElement_eq_ok_iff hs).mp run
    obtain ⟨roots, hroots⟩ := s.replaceContainer_cases path k'
    rw [hroots]
    exact ⟨hid, rfl, rfl, rfl, rfl⟩
  obtain ⟨hid, hrelationships, himports, hextensions, hheader⟩ := hrest
  refine ⟨hid, ?_⟩
  constructor
  case kept =>
    intro i slot hslot
    have hold : i ∉ (Element.flowElement e).subtree.map Element.id := by
      intro hmem
      obtain ⟨x, hx, rfl⟩ := List.mem_map.mp hmem
      cases hslot.symm.trans (hadmits.2 x hx).1
    exact (hgains.kept i hold).trans hslot
  case gained =>
    intro i
    rw [Registry.contains_iff_ids, Registry.contains_iff_ids, hgains.ids, List.mem_append]
  case fresh =>
    intro i hmem
    obtain ⟨x, hx, rfl⟩ := List.mem_map.mp hmem
    rw [Registry.contains, (hadmits.2 x hx).1]
    rfl
  case apart =>
    intro i x hx hi hend
    rw [hget hx hi]
    split
    · rename_i howner
      rw [beside_of_not_end hx (hs.get?_eq_some_iff.mp hx).1 howner hend]
    · rfl
  case ends =>
    rintro flow rfl i node hnode howner
    have hid : node.id = i := (hs.get?_eq_some_iff.mp hnode).1
    rw [hget hnode (not_mem_path_of_owner hs hnode howner), if_pos howner]
    simp only [← hid, ← Edges.attach_eq]
    rfl
  case within => exact fun i x hx hi => within_of_added hs run hx hi
  case contents =>
    intro i c hc hi
    obtain ⟨x, hx, hxc⟩ := Option.bind_eq_some_iff.mp hc
    rw [contents?, hget hx hi, Option.bind_some]
    split
    · rwa [Element.container?_beside]
    · exact hxc
  case order => exact order_of_added hs run
  case roots => exact roots_of_added hs run
  case relationships => exact hrelationships
  case imports => exact himports
  case extensions => exact hextensions
  case header => exact hheader

namespace Scope

/-- Two processes with a task each. -/
def neighbours : Scope :=
  (Change.addFlowElement ⟨"q"⟩ (.task (.bare ⟨"b"⟩) .plain)).after <|
    (Change.addRoot (.process (.bare ⟨"q"⟩))).after <| addTask.after processed

end Scope

/-- A flow of one process that names the task of the other as its target is listed at its source
only, and the other process is as it was. -/
theorem Reachable.grows_under_neighbours :
    let flow : SequenceFlow := ⟨⟨.bare ⟨"f"⟩, none, []⟩, ⟨⟨"a"⟩⟩, ⟨⟨"b"⟩⟩, none, none⟩
    ∃ t, addFlowElement ⟨"p"⟩ (.sequenceFlow flow) neighbours = .ok ⟨"f"⟩ t ∧
      t.get? ⟨"b"⟩ = neighbours.get? ⟨"b"⟩ ∧ t.contents? ⟨"q"⟩ = neighbours.contents? ⟨"q"⟩ ∧
      t.get? ⟨"a"⟩ = some (.flowElement ((FlowElement.task (.bare ⟨"a"⟩) .plain).mapEdges
        fun _ => ⟨[], [⟨⟨"f"⟩⟩]⟩)) := by
  intro flow
  have hs : Reachable neighbours :=
    .after _ (.task _ _) nofun <| .after _ ⟨[], [], nofun, rfl⟩ nofun <|
      .after _ (.task _ _) nofun <| .after _ ⟨[], [], nofun, rfl⟩ nofun (.fresh _ _)
  obtain ⟨t, run⟩ : ∃ t, addFlowElement ⟨"p"⟩ (.sequenceFlow flow) neighbours = .ok ⟨"f"⟩ t :=
    ⟨_, rfl⟩
  obtain ⟨-, frame⟩ := Reachable.grows_under hs run
  have hpath : neighbours.registry.path ⟨"p"⟩ = [⟨"p"⟩] := rfl
  refine ⟨t, run, ?_, ?_, ?_⟩
  · obtain ⟨x, hx⟩ : ∃ x, neighbours.get? ⟨"b"⟩ = some x := ⟨_, rfl⟩
    have hend : ¬ neighbours.IsEnd ⟨"p"⟩ (.sequenceFlow flow) ⟨"b"⟩ := by
      rintro ⟨_, _, -, -, -, howner⟩
      have hq : (neighbours.registry.slot? ⟨"b"⟩).bind Slot.owner = some ⟨"q"⟩ := rfl
      exact absurd (hq.symm.trans howner) (by decide)
    rw [hx, frame.apart _ _ hx (by rw [hpath]; decide) hend]
  · obtain ⟨k, hk⟩ : ∃ k, neighbours.contents? ⟨"q"⟩ = some k := ⟨_, rfl⟩
    rw [hk, frame.contents _ _ hk (by rw [hpath]; decide)]
  · exact frame.ends flow rfl ⟨"a"⟩ (.task (.bare ⟨"a"⟩) .plain) rfl rfl

end BpmnModel
