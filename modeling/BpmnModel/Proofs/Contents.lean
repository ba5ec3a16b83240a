import BpmnModel.Proofs.Ownership

/-!
# Slots of containers under edits

What a change of a container does to the slots of everything below it.  Slots do not see the flows
listed at a node, so wiring leaves them alone.

* `Container.slots_insert`, `Container.slots_remove?` — one element more, one tree less.
* `Container.slots_replaceAt` — a change of an inner container, seen from an outer one.
-/

namespace BpmnModel

/-! ## Lists of named things -/

section Named

variable {α : Type} {name : α → Id} {xs : List α} {k : Id} {x : α}

theorem map_eq_self_of_ne (h : ∀ y ∈ xs, name y ≠ k) (f : α → α) :
    xs.map (fun y => if name y = k then f y else y) = xs :=
  (List.map_congr_left fun y hy => if_neg (h y hy)).trans (List.map_id xs)

/-- Where the names are distinct, changing all of a name changes the one that a search finds. -/
theorem split_of_find? (hnd : (xs.map name).Nodup) (h : xs.find? (name · = k) = some x) :
    ∃ l r, xs = l ++ x :: r ∧
      ∀ f : α → α, xs.map (fun y => if name y = k then f y else y) = l ++ f x :: r := by
  obtain ⟨hx, l, r, rfl, hl⟩ := List.find?_eq_some_iff_append.mp h
  rw [decide_eq_true_iff] at hx
  refine ⟨l, r, rfl, ?_⟩
  intro f
  have hr : ∀ y ∈ r, name y ≠ k := by
    intro y hy heq
    rw [List.map_append, List.map_cons, List.nodup_append] at hnd
    have hmem : name x ∈ r.map name := by
      rw [hx, ← heq]
      exact List.mem_map_of_mem hy
    exact (List.nodup_cons.mp hnd.2.1).1 hmem
  rw [List.map_append, List.map_cons, map_eq_self_of_ne (by simpa using hl) f,
    map_eq_self_of_ne hr f, if_pos hx]

/-- Where the names are distinct, changing all of the last name changes the last alone. -/
theorem map_concat_of_nodup (hnd : ((xs ++ [x]).map name).Nodup) (f : α → α) :
    (xs ++ [x]).map (fun y => if name y = name x then f y else y) = xs ++ [f x] := by
  rw [List.map_append, List.map_singleton, List.nodup_append] at hnd
  have hne : ∀ y ∈ xs, name y ≠ name x := fun y hy =>
    hnd.2.2 _ (List.mem_map_of_mem hy) _ (List.mem_singleton_self _)
  rw [List.map_append, map_eq_self_of_ne hne f, List.map_singleton, if_pos rfl]

/-- What a search finds stands between what is left when it is taken out. -/
theorem exists_append_of_find? (h : xs.find? (name · = k) = some x) :
    ∃ l r, xs = l ++ x :: r ∧ xs.eraseP (name · = k) = l ++ r := by
  obtain ⟨hx, l, r, rfl, hl⟩ := List.find?_eq_some_iff_append.mp h
  refine ⟨l, r, rfl, ?_⟩
  rw [List.eraseP_append_right _ (by simpa using hl), List.eraseP_cons_of_pos (by simpa using hx)]

theorem perm_cons_eraseP_of_find? (h : xs.find? (name · = k) = some x) :
    xs.Perm (x :: xs.eraseP (name · = k)) := by
  obtain ⟨l, r, rfl, herase⟩ := exists_append_of_find? h
  rw [herase]
  exact List.perm_middle

theorem map_name_sublist_flatMap {β : Type} {key : β → Id} {f : α → List β}
    (h : ∀ x, ∃ y ys, f x = y :: ys ∧ key y = name x) :
    (xs.map name).Sublist ((xs.flatMap f).map key) := by
  induction xs with
  | nil => exact List.Sublist.slnil
  | cons x xs ih =>
    obtain ⟨y, ys, hf, hk⟩ := h x
    rw [List.map_cons, List.flatMap_cons, hf, List.cons_append, List.map_cons, List.map_append, hk]
    exact (ih.trans (List.sublist_append_right _ _)).cons_cons _

end Named

/-! ## Slots -/

/-- What a walk of the element leaves in a registry. -/
def Element.slots (owner : Option Id) (e : Element) : List (Id × Slot) :=
  (e.placed owner).map Placed.slot

/-- What the walks of the elements of a container leave in a registry. -/
def Container.slots (owner : Id) (c : Container) : List (Id × Slot) :=
  c.owned.flatMap (Element.slots (some owner))

namespace Element

theorem slots_eq (e : Element) (owner : Option Id) :
    e.slots owner = (e.id, ⟨e.kind, owner⟩) :: e.children.flatMap (slots (some e.id)) := by
  rw [slots, placed_eq, List.map_cons, List.map_flatMap]
  rfl

end Element

namespace FlowElement

@[simp]
theorem base_mapEdges (f : Edges → Edges) (e : FlowElement) : (e.mapEdges f).base = e.base := by
  cases e <;> rfl

@[simp]
theorem id_mapEdges (f : Edges → Edges) (e : FlowElement) : (e.mapEdges f).id = e.id :=
  congrArg FlowBase.id (base_mapEdges f e)

@[simp]
theorem id_mapContainer (f : Container → Container) (e : FlowElement) :
    (e.mapContainer f).id = e.id := by
  cases e <;> rfl

@[simp]
theorem mapContainer_mapContainer (f g : Container → Container) (e : FlowElement) :
    (e.mapContainer f).mapContainer g = e.mapContainer (g ∘ f) := by
  cases e <;> rfl

@[simp]
theorem id_attach (e : FlowElement) (flow : SequenceFlow) : (e.attach flow).id = e.id :=
  id_mapEdges _ e

@[simp]
theorem id_detach (e : FlowElement) (flow : Id) : (e.detach flow).id = e.id :=
  id_mapEdges _ e

theorem mapEdges_mapEdges (f g : Edges → Edges) (e : FlowElement) :
    (e.mapEdges f).mapEdges g = e.mapEdges (g ∘ f) := by
  cases e <;> rfl

/-- Attaching flows in turn changes the edges alone. -/
theorem foldl_attach_eq (flows : List SequenceFlow) (e : FlowElement) :
    flows.foldl attach e = e.mapEdges (flows.foldl (Edges.attach e.id)) := by
  induction flows generalizing e with
  | nil => cases e <;> rfl
  | cons flow flows ih =>
    rw [List.foldl_cons, ih, attach, mapEdges_mapEdges, id_mapEdges]
    rfl

theorem slots_mapEdges (f : Edges → Edges) (e : FlowElement) (owner : Option Id) :
    (Element.flowElement (e.mapEdges f)).slots owner = (Element.flowElement e).slots owner := by
  cases e <;> simp only [Element.slots_eq] <;> rfl

theorem slots_attach (e : FlowElement) (flow : SequenceFlow) (owner : Option Id) :
    (Element.flowElement (e.attach flow)).slots owner = (Element.flowElement e).slots owner :=
  slots_mapEdges _ e owner

theorem slots_foldl_attach (flows : List SequenceFlow) (e : FlowElement) (owner : Option Id) :
    (Element.flowElement (flows.foldl attach e)).slots owner =
      (Element.flowElement e).slots owner := by
  rw [foldl_attach_eq, slots_mapEdges]

/-- The slots of a sub-process: its own, those of its contents and those of its artifacts. -/
theorem slots_of_container? {e : FlowElement} {c : Container} (h : e.container? = some c) :
    ∃ rest, ∀ (f : Container → Container) (owner : Option Id),
      (Element.flowElement (e.mapContainer f)).slots owner =
        (e.id, ⟨e.kind, owner⟩) :: ((f c).slots e.id ++ rest) := by
  cases e with
  | subProcess a t es ls as =>
    cases h
    refine ⟨(as.map Element.artifact).flatMap (Element.slots (some a.base.id)), ?_⟩
    intro f owner
    rw [Element.slots_eq]
    simp only [mapContainer, Element.children, List.flatMap_append]
    rfl
  | _ => cases h

end FlowElement

namespace Container

variable {c c' inner new : Container} {owner : Id} {e : FlowElement}

theorem slots_eq (owner : Id) (c : Container) :
    c.slots owner =
      c.elements.flatMap (fun e => (Element.flowElement e).slots (some owner)) ++
        c.laneSets.flatMap (fun s => (Element.laneSet s).slots (some owner)) := by
  rw [slots, owned, List.flatMap_append, List.flatMap_map, List.flatMap_map]

theorem nodup_ids (h : ((c.slots owner).map Prod.fst).Nodup) :
    (c.elements.map FlowElement.id).Nodup := by
  rw [slots_eq, List.map_append] at h
  refine (map_name_sublist_flatMap fun e => ?_).nodup (List.nodup_append.mp h).1
  exact ⟨_, _, Element.slots_eq _ _, rfl⟩

/-- What an insertion does: a flow is listed at the nodes that are there, a node lists the flows. -/
theorem insert_cases (h : c.insert e = .ok c') :
    c.find? e.id = none ∧
      ((∃ flow, e = .sequenceFlow flow ∧
          c' = ⟨c.elements.map (·.attach flow) ++ [.sequenceFlow flow], c.laneSets⟩) ∨
        (e.sequenceFlow? = none ∧
          c' = ⟨c.elements ++ [c.sequenceFlows.foldl .attach e], c.laneSets⟩)) := by
  unfold insert at h
  split at h
  · cases h
  · rename_i hf
    refine ⟨hf, ?_⟩
    cases e with
    | sequenceFlow flow =>
      cases h
      exact .inl ⟨flow, rfl, rfl⟩
    | _ =>
      cases h
      exact .inr ⟨rfl, rfl⟩

theorem insert_flow {flow : SequenceFlow} (hfind : c.find? flow.id = none) :
    c.insert (.sequenceFlow flow) =
      .ok ⟨c.elements.map (·.attach flow) ++ [.sequenceFlow flow], c.laneSets⟩ := by
  unfold insert
  rw [show c.find? (FlowElement.sequenceFlow flow).id = none from hfind]

theorem insert_node (hfind : c.find? e.id = none) (hnode : e.sequenceFlow? = none) :
    c.insert e = .ok ⟨c.elements ++ [c.sequenceFlows.foldl .attach e], c.laneSets⟩ := by
  unfold insert
  rw [hfind]
  cases e with
  | sequenceFlow flow => cases hnode
  | _ => rfl

theorem laneSets_insert (h : c.insert e = .ok c') : c'.laneSets = c.laneSets := by
  obtain ⟨-, ⟨flow, rfl, rfl⟩ | ⟨-, rfl⟩⟩ := insert_cases h <;> rfl

/-- What a removal does: a flow is struck from the nodes that stay. -/
theorem remove?_cases {id : Id} (h : c.remove? id = some (e, c')) :
    c.find? id = some e ∧
      ((∃ flow, e = .sequenceFlow flow ∧
          c' = ⟨(c.elements.eraseP (·.id = id)).map (.detach id), c.laneSets⟩) ∨
        (e.sequenceFlow? = none ∧ c' = ⟨c.elements.eraseP (·.id = id), c.laneSets⟩)) := by
  unfold remove? at h
  split at h
  · cases h
  · rename_i x hx
    cases x with
    | sequenceFlow flow =>
      cases h
      exact ⟨hx, .inl ⟨flow, rfl, rfl⟩⟩
    | _ =>
      cases h
      exact ⟨hx, .inr ⟨rfl, rfl⟩⟩

/-- An element that is inserted adds its slots. -/
theorem slots_insert (owner : Id) (h : c.insert e = .ok c') :
    (c'.slots owner).Perm (c.slots owner ++ (Element.flowElement e).slots (some owner)) := by
  have moved (xs ys zs : List (Id × Slot)) : (xs ++ ys ++ zs).Perm (xs ++ zs ++ ys) := by
    rw [List.append_assoc, List.append_assoc]
    exact List.perm_append_comm.append_left xs
  obtain ⟨-, ⟨flow, rfl, rfl⟩ | ⟨-, rfl⟩⟩ := insert_cases h
  · rw [slots_eq, slots_eq, List.flatMap_append, List.flatMap_map]
    simp only [FlowElement.slots_attach, List.flatMap_singleton]
    exact moved _ _ _
  · rw [slots_eq, slots_eq, List.flatMap_append]
    simp only [FlowElement.slots_foldl_attach, List.flatMap_singleton]
    exact moved _ _ _

/-- An element that is inserted stands in the container, a node with the flows that touch it. -/
theorem mem_elements_of_insert (h : c.insert e = .ok c') :
    ∃ flows : List SequenceFlow, flows.foldl .attach e ∈ c'.elements := by
  obtain ⟨-, ⟨flow, rfl, rfl⟩ | ⟨-, rfl⟩⟩ := insert_cases h
  · exact ⟨[], List.mem_append_right _ (List.mem_singleton_self _)⟩
  · exact ⟨c.sequenceFlows, List.mem_append_right _ (List.mem_singleton_self _)⟩

theorem slots_pushLaneSet (owner : Id) (c : Container) (s : LaneSet) :
    (c.pushLaneSet s).slots owner = c.slots owner ++ (Element.laneSet s).slots (some owner) := by
  rw [slots_eq, slots_eq, pushLaneSet, List.flatMap_append, List.flatMap_singleton,
    List.append_assoc]

/-- An element that is taken out takes its slots along. -/
theorem slots_remove? {id : Id} (owner : Id) (h : c.remove? id = some (e, c')) :
    (c.slots owner).Perm (c'.slots owner ++ (Element.flowElement e).slots (some owner)) := by
  have moved (xs ys zs : List (Id × Slot)) : (xs ++ ys ++ zs).Perm (ys ++ zs ++ xs) := by
    rw [List.append_assoc]
    exact List.perm_append_comm
  obtain ⟨hfind, hcases⟩ := remove?_cases h
  have hes := (perm_cons_eraseP_of_find? hfind).flatMap_right
    fun e => (Element.flowElement e).slots (some owner)
  rw [List.flatMap_cons] at hes
  rw [slots_eq owner c]
  refine (hes.append_right _).trans ((moved _ _ _).trans ?_)
  obtain ⟨flow, rfl, rfl⟩ | ⟨-, rfl⟩ := hcases
  · rw [slots_eq, List.flatMap_map]
    simp only [FlowElement.detach, FlowElement.slots_mapEdges]
    exact List.Perm.refl _
  · rw [slots_eq]

/-- **A change of the slots of an inner container is the same change of those of the outer one.** -/
theorem slots_replaceAt {path : List Id} {gone extra : List (Id × Slot)}
    (hnd : ((c.slots owner).map Prod.fst).Nodup) (hd : c.descend? path = some inner)
    (hnew : (new.slots (path.getLast?.getD owner) ++ gone).Perm
      (inner.slots (path.getLast?.getD owner) ++ extra)) :
    ((replaceAt new path c).slots owner ++ gone).Perm (c.slots owner ++ extra) := by
  induction path generalizing c owner with
  | nil =>
    cases hd
    exact hnew
  | cons step rest ih =>
    rw [List.getLast?_cons, Option.getD_some] at hnew
    rw [descend?] at hd
    cases hf : (c.find? step).bind FlowElement.container? with
    | none =>
      rw [hf] at hd
      cases hd
    | some mid =>
      rw [hf] at hd
      obtain ⟨e, he, hmid⟩ := Option.bind_eq_some_iff.mp hf
      have hid : e.id = step := by simpa using List.find?_some he
      obtain ⟨l, r, hlr, hmap⟩ := split_of_find? (nodup_ids hnd) he
      obtain ⟨artifacts, hslots⟩ := FlowElement.slots_of_container? hmid
      have hself : (Element.flowElement e).slots (some owner) =
          (e.id, ⟨e.kind, some owner⟩) :: (mid.slots e.id ++ artifacts) := by
        have := hslots id (some owner)
        cases e <;> exact this
      -- the step is one element of the list, so only its slots change
      have hbefore := slots_eq owner c
      have hnewc : replaceAt new (step :: rest) c =
          ⟨l ++ e.mapContainer (replaceAt new rest) :: r, c.laneSets⟩ := by
        rw [← hmap]
        rfl
      have hafter := slots_eq owner (replaceAt new (step :: rest) c)
      rw [hlr, List.flatMap_append, List.flatMap_cons, hself] at hbefore
      rw [hnewc] at hafter
      simp only at hafter
      rw [List.flatMap_append, List.flatMap_cons, hslots] at hafter
      have hndmid : ((mid.slots step).map Prod.fst).Nodup := by
        refine List.Sublist.nodup (List.Sublist.map _ ?_) hnd
        rw [hbefore, hid]
        refine List.Sublist.trans ?_ (List.sublist_append_left _ _)
        refine List.Sublist.trans ?_ (List.sublist_append_right _ _)
        refine List.Sublist.trans ?_ (List.sublist_append_left _ _)
        exact (List.sublist_append_left _ _).cons _
      have hinner := ih hndmid hd hnew
      rw [hnewc, hafter, hbefore, hid]
      rw [List.perm_iff_count] at hinner ⊢
      intro a
      have := hinner a
      simp only [List.count_append, List.count_cons] at this ⊢
      omega

/-- Putting a container in place and another one below it is one replacement. -/
theorem replaceAt_replaceAt (k new : Container) (path rest : List Id) (c : Container) :
    replaceAt new (path ++ rest) (replaceAt k path c) =
      replaceAt (replaceAt new rest k) path c := by
  induction path generalizing c with
  | nil => rfl
  | cons step path ih =>
    rw [List.cons_append, replaceAt, replaceAt, replaceAt, List.map_map, Container.mk.injEq]
    refine ⟨List.map_congr_left fun e _ => ?_, rfl⟩
    rw [Function.comp_apply]
    by_cases hid : e.id = step
    · rw [if_pos hid, if_pos hid, FlowElement.id_mapContainer, if_pos hid,
        FlowElement.mapContainer_mapContainer]
      exact congrArg e.mapContainer (funext ih)
    · rw [if_neg hid, if_neg hid, if_neg hid]

theorem descend?_append (c : Container) (path : List Id) (id : Id) :
    c.descend? (path ++ [id]) =
      (c.descend? path).bind fun k => (k.find? id).bind FlowElement.container? := by
  induction path generalizing c with
  | nil =>
    rw [List.nil_append, descend?, descend?, Option.bind_some]
    cases (c.find? id).bind FlowElement.container? <;> rfl
  | cons step path ih =>
    rw [List.cons_append, descend?, descend?]
    cases (c.find? step).bind FlowElement.container? with
    | none => rfl
    | some k => exact ih k

theorem find?_replaceAt (new : Container) (step : Id) (rest : List Id) (k : Container) (id : Id) :
    (replaceAt new (step :: rest) k).find? id =
      (k.find? id).map fun e => if e.id = step then e.mapContainer (replaceAt new rest) else e := by
  rw [replaceAt, find?, List.find?_map]
  have hname : ((fun e : FlowElement => decide (e.id = id)) ∘
      fun e => if e.id = step then e.mapContainer (replaceAt new rest) else e) =
        fun e => decide (e.id = id) := by
    funext e
    simp only [Function.comp_apply]
    split <;> simp [*]
  rw [hname]
  rfl

/-- The container that was put in place is found there. -/
theorem descend?_replaceAt {path : List Id} (hd : c.descend? path = some inner) :
    (replaceAt new path c).descend? path = some new := by
  induction path generalizing c with
  | nil => rfl
  | cons step rest ih =>
    rw [descend?] at hd
    cases hf : (c.find? step).bind FlowElement.container? with
    | none =>
      rw [hf] at hd
      cases hd
    | some mid =>
      rw [hf] at hd
      obtain ⟨e, he, hmid⟩ := Option.bind_eq_some_iff.mp hf
      have hid : e.id = step := by simpa using List.find?_some he
      have hfind : (replaceAt new (step :: rest) c).find? step =
          some (e.mapContainer (replaceAt new rest)) := by
        rw [find?_replaceAt, he, Option.map_some, if_pos hid]
      have hcont : (e.mapContainer (replaceAt new rest)).container? =
          some (replaceAt new rest mid) := by
        cases e with
        | subProcess a t es ls as =>
          cases hmid
          rfl
        | _ => cases hmid
      rw [descend?, hfind, Option.bind_some, hcont]
      exact ih hd

end Container

end BpmnModel
