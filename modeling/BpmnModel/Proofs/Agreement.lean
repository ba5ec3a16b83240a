import BpmnModel.Proofs.Contents
import BpmnModel.Proofs.Registration
import BpmnModel.Proofs.Roles
import BpmnModel.Scope.Edit

/-!
# Agreement of a scope with its registry

* `Scope.Agrees` — the registry records the walk of the scope, and the only reserved identifier is
  that of the scope itself.
* `Scope.containerAt?_eq`, `Scope.get?_eq_some_iff` — in such a scope the lookups by path find what
  stands in the tree.
-/

namespace BpmnModel

/-! ## Shapes and kinds -/

namespace Element

/-- Only processes and sub-processes have contents, and their kinds say so. -/
theorem kind_has_container (e : Element) : e.kind.has .container = e.container?.isSome :=
  e.kind_has .container

variable {e : Element}

theorem eq_root_of_has (h : e.kind.has .rootElement = true) : ∃ r, e = .root r := by
  rw [e.kind_has] at h
  cases e with
  | root r => exact ⟨r, rfl⟩
  | _ => cases h

theorem eq_flowElement_of_has (h : e.kind.has .flowElement = true) :
    ∃ f, e = .flowElement f := by
  rw [e.kind_has] at h
  cases e with
  | flowElement f => exact ⟨f, rfl⟩
  | _ => cases h

theorem eq_interface_of_kind (h : e.kind = .interface) : ∃ i, e = .root (.interface i) := by
  obtain ⟨r, rfl⟩ := eq_root_of_has (by rw [h]; rfl)
  cases r with
  | interface i => exact ⟨i, rfl⟩
  | collaboration c =>
    obtain ⟨_, isGlobal, _⟩ := c
    cases isGlobal <;> cases h
  | _ => cases h

theorem eq_collaboration_of_kind (h : Requirement.anyCollaboration.isMetBy e.kind = true) :
    ∃ c, e = .root (.collaboration c) := by
  have hroot : ∀ k : Kind, Requirement.anyCollaboration.isMetBy k = true →
      k.has .rootElement = true := by
    intro k
    cases k <;> decide
  obtain ⟨r, rfl⟩ := eq_root_of_has (hroot _ h)
  cases r with
  | collaboration c => exact ⟨c, rfl⟩
  | _ => cases h

/-- A child is never a root element. -/
theorem root?_of_mem_children {e c : Element} (h : c ∈ e.children) : c.root? = none := by
  have leaves {α : Type} {mk : α → Element} {xs : List α} (hmk : ∀ x, (mk x).root? = none)
      (h : c ∈ xs.map mk) : c.root? = none := by
    obtain ⟨x, -, rfl⟩ := List.mem_map.mp h
    exact hmk x
  have owned {k : Container} (h : c ∈ k.owned) : c.root? = none := by
    rcases List.mem_append.mp h with h | h
    · exact leaves (fun _ => rfl) h
    · exact leaves (fun _ => rfl) h
  cases e with
  | root r =>
    cases r with
    | process p =>
      rcases List.mem_append.mp h with h | h
      · exact owned h
      · exact leaves (fun _ => rfl) h
    | collaboration k =>
      simp only [children, List.mem_append] at h
      rcases h with ((((h | h) | h) | h) | h) | h <;> exact leaves (fun _ => rfl) h
    | interface i => exact leaves (fun _ => rfl) h
    | resource x => exact leaves (fun _ => rfl) h
    | category x => exact leaves (fun _ => rfl) h
    | _ => cases h
  | conversationNode n =>
    rcases List.mem_append.mp h with h | h <;> exact leaves (fun _ => rfl) h
  | flowElement f =>
    cases f with
    | subProcess a t es ls as =>
      rcases List.mem_append.mp h with h | h
      · exact owned h
      · exact leaves (fun _ => rfl) h
    | _ => cases h
  | laneSet s => exact leaves (fun _ => rfl) h
  | _ => cases h

theorem owned_sublist_children {e : Element} {k : Container} (hk : e.container? = some k) :
    k.owned.Sublist e.children := by
  cases e with
  | root r =>
    cases r with
    | process p =>
      cases hk
      exact List.sublist_append_left _ _
    | _ => cases hk
  | flowElement f =>
    cases f with
    | subProcess a t es ls as =>
      cases hk
      exact List.sublist_append_left _ _
    | _ => cases hk
  | _ => cases hk

theorem owned_subset_children {e c : Element} {k : Container} (hk : e.container? = some k)
    (h : c ∈ k.owned) : c ∈ e.children :=
  (owned_sublist_children hk).subset h

theorem flowElement_mem_children {e : Element} {k : Container} (hk : e.container? = some k)
    {f : FlowElement} (hf : f ∈ k.elements) : .flowElement f ∈ e.children :=
  owned_subset_children hk (List.mem_append_left _ (List.mem_map_of_mem hf))

/-- A flow element stands in a container: its owner has one, and it stands there. -/
theorem mem_container_of_mem_children {e : Element} {f : FlowElement}
    (h : .flowElement f ∈ e.children) : ∃ k, e.container? = some k ∧ f ∈ k.elements := by
  have owned {k : Container} {as : List Artifact}
      (h : Element.flowElement f ∈ k.owned ++ as.map artifact) : f ∈ k.elements := by
    simpa [Container.owned] using h
  cases e with
  | root r =>
    cases r with
    | process p => exact ⟨_, rfl, owned h⟩
    | collaboration k => simp [children] at h
    | interface i => simp [children] at h
    | resource x => simp [children] at h
    | category x => simp [children] at h
    | _ => cases h
  | conversationNode n => simp [children] at h
  | flowElement g =>
    cases g with
    | subProcess a t es ls as => exact ⟨_, rfl, owned h⟩
    | _ => cases h
  | laneSet s => simp [children] at h
  | _ => cases h

/-- The identifiers of children are among those of the tree. -/
theorem nodup_children {e : Element} {owner : Option Id}
    (hnd : ((e.placed owner).map Placed.id).Nodup) :
    (e.children.map id).Nodup ∧
      ∀ c ∈ e.children, ((c.placed (some e.id)).map Placed.id).Nodup := by
  rw [placed_eq, List.map_cons] at hnd
  have hbelow := (List.nodup_cons.mp hnd).2
  constructor
  · refine hbelow.sublist (map_name_sublist_flatMap fun c => ?_)
    exact ⟨_, _, placed_eq c _, rfl⟩
  · intro c hc
    refine hbelow.sublist (.map _ ?_)
    exact List.sublist_flatten_of_mem (List.mem_map_of_mem (f := placed (some e.id)) hc)

/-- So are those of the children of everything in the tree. -/
theorem nodup_children_of_mem {e : Element} {owner : Option Id} {p : Placed}
    (hnd : ((e.placed owner).map Placed.id).Nodup) (hp : p ∈ e.placed owner) :
    (p.element.children.map id).Nodup := by
  have htree : ((p.element.placed none).map Placed.id).Nodup := by
    refine forall_mem_placed (P := fun x => ((x.placed none).map Placed.id).Nodup) ?_ ?_ owner p hp
    · intro x hx c hc
      rw [map_id_placed c none (some x.id)]
      exact (nodup_children hx).2 c hc
    · rwa [map_id_placed e none owner]
  exact (nodup_children htree).1

theorem nodup_elements {e : Element} {c : Container} (hnd : (e.children.map id).Nodup)
    (hc : e.container? = some c) : (c.elements.map FlowElement.id).Nodup := by
  have howned := hnd.sublist ((owned_sublist_children hc).map id)
  rw [Container.owned, List.map_append, List.map_map] at howned
  exact (List.nodup_append.mp howned).1

end Element

namespace Scope

variable {s t : Scope}

/-! ## The slots of a scope -/

/-- What the walk of the scope leaves in a registry. -/
def slots (s : Scope) : List (Id × Slot) := s.placed.map Placed.slot

theorem slots_eq (s : Scope) :
    s.slots = s.roots.flatMap (fun r => (Element.root r).slots none) ++
      s.relationships.flatMap (fun r => (Element.relationship r).slots none) := by
  rw [slots, placed, topLevel, List.map_flatMap, List.flatMap_append, List.flatMap_map,
    List.flatMap_map]
  rfl

theorem mem_topLevel_root {r : Root} : .root r ∈ s.topLevel ↔ r ∈ s.roots := by
  simp [topLevel]

/-- The registry records the walk, and nothing but the identifier of the scope is reserved. -/
structure Agrees (s : Scope) : Prop where
  records : s.registry.Records s.placed
  reserved : s.registry.reserved = [s.id]

namespace OwnerPath

variable {path : List Id} {e : Element}

theorem getLast? (h : s.OwnerPath path e) : path.getLast? = some e.id := by
  cases h <;> simp

/-- Root elements stand at the top. -/
theorem mem_roots {r : Root} (h : s.OwnerPath path (.root r)) : r ∈ s.roots ∧ path = [r.id] := by
  generalize he : Element.root r = e at h
  cases h with
  | top h =>
    subst he
    exact ⟨mem_topLevel_root.mp h, congrArg ([·]) (Element.id_root r)⟩
  | child above h =>
    subst he
    cases Element.root?_of_mem_children h

end OwnerPath

namespace Agrees

theorem fresh (id : Id) (targetNamespace : String) : (Scope.fresh id targetNamespace).Agrees :=
  ⟨⟨List.Perm.refl _, List.nodup_nil, fun p hp => by cases hp⟩, rfl⟩

theorem id_not_mem (h : s.Agrees) : s.id ∉ s.placed.map Placed.id := by
  intro hm
  obtain ⟨p, hp, hid⟩ := List.mem_map.mp hm
  refine h.records.free p hp ?_
  rw [h.reserved, hid]
  exact List.mem_singleton_self _

/-- The slots may change their order. -/
theorem keep (h : s.Agrees) (hreg : t.registry = s.registry) (hid : t.id = s.id)
    (hp : s.slots.Perm t.slots) : t.Agrees := by
  constructor
  · rw [hreg]
    exact h.records.perm hp
  · rw [hreg, hid, h.reserved]

/-- The tree grows by what was registered. -/
theorem grow (h : s.Agrees) {e : Element} {owner : Option Id}
    (hr : s.registry.register e owner = .ok t.registry) (hid : t.id = s.id)
    (hp : t.slots.Perm (s.slots ++ e.slots owner)) : t.Agrees := by
  obtain ⟨hrec, hres⟩ := h.records.register hr
  refine ⟨hrec.perm ?_, by rw [hres, h.reserved, hid]⟩
  rw [List.map_append]
  exact hp.symm

/-- The tree shrinks by what was taken out of the registry. -/
theorem shrink (h : s.Agrees) {e : Element} {owner : Option Id}
    (hr : t.registry = (s.registry.unregister e).2) (hid : t.id = s.id)
    (hp : s.slots.Perm (t.slots ++ e.slots owner)) : t.Agrees := by
  have hrec : s.registry.Records (t.placed ++ e.placed owner) := by
    refine h.records.perm ?_
    rw [List.map_append]
    exact hp
  obtain ⟨hrec', hres⟩ := hrec.unregister
  constructor
  · rw [hr]
    exact hrec'
  · rw [hr, hres, h.reserved, hid]

/-! ## Lookups -/

theorem nodup_slots (h : s.Agrees) : (s.slots.map Prod.fst).Nodup := by
  rw [slots, Registry.map_fst_slot]
  exact h.records.nodup

theorem nodup_roots (h : s.Agrees) : (s.roots.map Root.id).Nodup := by
  have hnd := h.nodup_slots
  rw [slots_eq, List.map_append, List.nodup_append] at hnd
  refine (map_name_sublist_flatMap fun r => ?_).nodup hnd.1
  exact ⟨_, _, Element.slots_eq _ _, Element.id_root r⟩

theorem nodup_topLevel (h : s.Agrees) {e : Element} (he : e ∈ s.topLevel) :
    ((e.placed none).map Placed.id).Nodup := by
  refine h.records.nodup.sublist (.map _ ?_)
  exact List.sublist_flatten_of_mem (List.mem_map_of_mem he)

theorem nodup_children (h : s.Agrees) {o : Option Id} {x : Element} (hx : ⟨o, x⟩ ∈ s.placed) :
    (x.children.map Element.id).Nodup := by
  obtain ⟨e, he, hx⟩ := mem_placed.mp hx
  exact Element.nodup_children_of_mem (p := ⟨o, x⟩) (h.nodup_topLevel he) hx

theorem eq_of_id (h : s.Agrees) {o o' : Option Id} {x y : Element} (hx : ⟨o, x⟩ ∈ s.placed)
    (hy : ⟨o', y⟩ ∈ s.placed) (hid : x.id = y.id) : x = y := by
  have := h.records.eq_of_id hx hy hid
  cases this
  rfl

/-- One identifier is enough to find a child. -/
theorem child?_eq (h : s.Agrees) {o : Option Id} {e c : Element} (he : ⟨o, e⟩ ∈ s.placed)
    (hc : c ∈ e.children) : e.child? c.id = some c :=
  Element.child?_eq_some hc fun _ hd hid =>
    h.eq_of_id (child_mem_placed he hd) (child_mem_placed he hc) hid

theorem root?_eq (h : s.Agrees) {r : Root} (hr : r ∈ s.roots) : s.root? r.id = some r := by
  refine find?_eq_some_of_unique hr ?_
  intro q hq hid
  have := h.eq_of_id (mem_placed_of_topLevel (mem_topLevel_root.mpr hq))
    (mem_placed_of_topLevel (mem_topLevel_root.mpr hr)) (by rwa [Element.id_root, Element.id_root])
  cases this
  rfl

theorem topLevel?_eq (h : s.Agrees) {e : Element} (he : e ∈ s.topLevel) :
    s.topLevel? e.id = some e := by
  have huniq {x : Element} (hx : x ∈ s.topLevel) (hid : x.id = e.id) : x = e :=
    h.eq_of_id (mem_placed_of_topLevel hx) (mem_placed_of_topLevel he) hid
  rcases List.mem_append.mp he with hm | hm
  · obtain ⟨r, hr, rfl⟩ := List.mem_map.mp hm
    rw [topLevel?, Element.id_root, h.root?_eq hr]
  · obtain ⟨r, hr, rfl⟩ := List.mem_map.mp hm
    rw [topLevel?, show (Element.relationship r).id = r.id from rfl]
    cases hf : s.root? r.id with
    | some q =>
      have hid : q.id = r.id := by simpa using List.find?_some hf
      have hq := mem_topLevel_root.mpr (List.mem_of_find?_eq_some hf)
      cases huniq hq ((Element.id_root q).trans hid)
    | none =>
      have hfind : s.relationships.find? (·.id = r.id) = some r := by
        refine find?_eq_some_of_unique hr ?_
        intro q hq hid
        have hq : Element.relationship q ∈ s.topLevel :=
          List.mem_append_right _ (List.mem_map_of_mem hq)
        cases huniq hq hid
        rfl
      rw [hfind]
      rfl

theorem get?_eq (h : s.Agrees) {path : List Id} {e : Element} (he : s.OwnerPath path e) :
    s.get? e.id = some e := by
  suffices hdown : ∃ top rest, path = top :: rest ∧
      (s.topLevel? top).bind (·.descend? rest) = some e by
    obtain ⟨top, rest, hp, hd⟩ := hdown
    rw [get?, h.records.path_eq he, hp]
    exact hd
  induction he with
  | top he => exact ⟨_, [], rfl, by rw [h.topLevel?_eq he]; rfl⟩
  | @child path e c above hc ih =>
    obtain ⟨top, rest, rfl, hd⟩ := ih
    obtain ⟨x, hx, hdx⟩ := Option.bind_eq_some_iff.mp hd
    obtain ⟨o, ho⟩ := above.mem_placed
    refine ⟨top, rest ++ [c.id], rfl, ?_⟩
    rw [hx, Option.bind_some, Element.descend?_append, hdx]
    exact h.child?_eq ho hc

/-- **A lookup finds the element of the tree that has the identifier.** -/
theorem get?_eq_some_iff (h : s.Agrees) {id : Id} {e : Element} :
    s.get? id = some e ↔ e.id = id ∧ ∃ path, s.OwnerPath path e := by
  constructor
  · intro hg
    by_cases hid : id ∈ s.placed.map Placed.id
    · obtain ⟨p, hp, rfl⟩ := List.mem_map.mp hid
      obtain ⟨path, hpath⟩ := exists_ownerPath hp
      have := h.get?_eq hpath
      rw [show p.element.id = p.id from rfl, hg] at this
      cases this
      exact ⟨rfl, path, hpath⟩
    · have hc : s.registry.contains id = false := by
        rw [← Bool.not_eq_true, h.records.contains_iff]
        exact hid
      rw [get?, Registry.path, Registry.Records.path?_of_unregistered hc] at hg
      cases hg
  · rintro ⟨rfl, path, hpath⟩
    exact h.get?_eq hpath

/-! ## Containers -/

/-- The container of an element is found at the path of the element. -/
theorem containerAt?_eq (h : s.Agrees) {path : List Id} {e : Element} {c : Container}
    (he : s.OwnerPath path e) (hc : e.container? = some c) : s.containerAt? path = some c := by
  suffices hdown : ∃ top rest p, path = top :: rest ∧ s.root? top = some (.process p) ∧
      p.container.descend? rest = some c by
    obtain ⟨top, rest, p, rfl, hp, hd⟩ := hdown
    rw [containerAt?, hp]
    exact hd
  induction he generalizing c with
  | @top e he =>
    rcases List.mem_append.mp he with hm | hm
    · obtain ⟨r, hr, rfl⟩ := List.mem_map.mp hm
      cases r with
      | process p =>
        cases hc
        exact ⟨_, [], p, rfl, h.root?_eq hr, rfl⟩
      | _ => cases hc
    · obtain ⟨r, -, rfl⟩ := List.mem_map.mp hm
      cases hc
  | @child path e x above hx ih =>
    -- only sub-processes are children with contents, so the owner has contents as well
    cases x with
    | flowElement f =>
      obtain ⟨k, hk, hf⟩ := Element.mem_container_of_mem_children hx
      obtain ⟨top, rest, p, rfl, hp, hd⟩ := ih hk
      obtain ⟨o, ho⟩ := above.mem_placed
      refine ⟨top, rest ++ [f.id], p, rfl, hp, ?_⟩
      have hfind : k.find? f.id = some f := by
        refine find?_eq_some_of_unique hf ?_
        intro g hg hid
        have hgm := child_mem_placed ho (Element.flowElement_mem_children hk hg)
        have := h.eq_of_id hgm (child_mem_placed ho hx) hid
        cases this
        rfl
      rw [Container.descend?_append, hd, Option.bind_some, hfind, Option.bind_some]
      exact hc
    | root r => cases Element.root?_of_mem_children hx
    | _ => cases hc

end Agrees

end Scope

end BpmnModel
