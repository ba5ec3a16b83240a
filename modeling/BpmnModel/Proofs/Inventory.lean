import BpmnModel.Proofs.Completeness
import BpmnModel.Proofs.Mirroring

/-!
# The elements of a scope without their contents

* `Entry`, `Scope.inventory` — every element of the ownership tree with its owner, its kind and the
  references that it holds, but without its contents.
* `Container.entries_replaceAt`, `Scope.inventory_replaceContainer` — where a container is replaced,
  the entries before it and those behind it stay as they are and in order.
-/

namespace BpmnModel

/-- An element as far as references are concerned. -/
structure Entry where
  owner : Option Id
  id : Id
  kind : Kind
  references : List Reference
deriving DecidableEq

/-- What stands in a listing of the elements, without its contents. -/
def Placed.entry (p : Placed) : Entry :=
  ⟨p.owner, p.element.id, p.element.kind, p.element.references⟩

/-- The entries of an element and of all that it owns. -/
def Element.entries (owner : Option Id) (e : Element) : List Entry :=
  (e.placed owner).map Placed.entry

/-- The entries of all that a container owns. -/
def Container.entries (owner : Id) (c : Container) : List Entry :=
  c.owned.flatMap (Element.entries (some owner))

/-- The entries of all elements of the scope, in the order of the ownership tree. -/
def Scope.inventory (s : Scope) : List Entry := s.placed.map Placed.entry

namespace Element

/-- The entries of all that the element owns. -/
def below (e : Element) : List Entry := e.children.flatMap (entries (some e.id))

theorem entries_eq (e : Element) (owner : Option Id) :
    e.entries owner = Placed.entry ⟨owner, e⟩ :: e.below := by
  rw [entries, placed_eq, List.map_cons, List.map_flatMap]
  rfl

theorem map_id_entries (e : Element) (owner : Option Id) :
    (e.entries owner).map Entry.id = e.subtree.map id := by
  rw [entries, subtree, List.map_map, List.map_map]
  exact e.map_id_placed owner none

end Element

namespace FlowElement

/-- The entry of a sub-process does not show its contents, which stand behind it. -/
theorem entries_mapContainer {e : FlowElement} {c : Container} (h : e.container? = some c) :
    ∃ artifacts, ∀ (f : Container → Container) (owner : Option Id),
      (Element.flowElement (e.mapContainer f)).entries owner =
        Placed.entry ⟨owner, .flowElement e⟩ :: ((f c).entries e.id ++ artifacts) := by
  cases e with
  | subProcess a t es ls as =>
    cases h
    refine ⟨(as.map Element.artifact).flatMap (Element.entries (some a.base.id)), ?_⟩
    intro f owner
    rw [Element.entries_eq, Element.below]
    simp only [mapContainer, Element.children, List.flatMap_append]
    rfl
  | _ => cases h

theorem below_mapEdges (f : Edges → Edges) (e : FlowElement) :
    (Element.flowElement (e.mapEdges f)).below = (Element.flowElement e).below := by
  cases e <;> rfl

end FlowElement

namespace Container

variable {c inner : Container}

theorem entries_eq (owner : Id) (c : Container) :
    c.entries owner =
      c.elements.flatMap (fun e => (Element.flowElement e).entries (some owner)) ++
        c.laneSets.flatMap (fun s => (Element.laneSet s).entries (some owner)) := by
  rw [entries, owned, List.flatMap_append, List.flatMap_map, List.flatMap_map]

/-- **Where an inner container is replaced, what stands before and behind its contents stays.** -/
theorem entries_replaceAt {path : List Id} (h : c.Complete) (hd : c.descend? path = some inner)
    (owner : Id) :
    ∃ pre post, c.entries owner = pre ++ inner.entries (path.getLast?.getD owner) ++ post ∧
      ∀ new : Container, (replaceAt new path c).entries owner =
        pre ++ new.entries (path.getLast?.getD owner) ++ post := by
  induction path generalizing c owner with
  | nil =>
    cases hd
    exact ⟨[], [], by simp, fun new => by simp [replaceAt]⟩
  | cons step rest ih =>
    rw [descend?] at hd
    cases hf : (c.find? step).bind FlowElement.container? with
    | none =>
      rw [hf] at hd
      cases hd
    | some mid =>
      rw [hf] at hd
      obtain ⟨e, he, hmid⟩ := Option.bind_eq_some_iff.mp hf
      have hid : e.id = step := by simpa using List.find?_some he
      subst hid
      have hassembled := h.inner e (List.mem_of_find?_eq_some he)
      obtain ⟨pre, post, hbefore, hafter⟩ := ih (hassembled.complete hmid) hd e.id
      obtain ⟨l, r, hlr, hmap⟩ := split_of_find? h.wired.nodup he
      obtain ⟨artifacts, hentries⟩ := FlowElement.entries_mapContainer hmid
      have hself : (Element.flowElement e).entries (some owner) =
          Placed.entry ⟨some owner, .flowElement e⟩ :: (mid.entries e.id ++ artifacts) := by
        have := hentries id (some owner)
        cases e <;> exact this
      have hlast : (e.id :: rest).getLast?.getD owner = rest.getLast?.getD e.id := by
        rw [List.getLast?_cons, Option.getD_some]
      let entriesOf (es : List FlowElement) : List Entry :=
        es.flatMap fun x => (Element.flowElement x).entries (some owner)
      refine ⟨entriesOf l ++ Placed.entry ⟨some owner, .flowElement e⟩ :: pre,
        post ++ artifacts ++ entriesOf r ++
          c.laneSets.flatMap fun x => (Element.laneSet x).entries (some owner), ?_, fun new => ?_⟩
      · rw [hlast, entries_eq owner c, hlr, List.flatMap_append, List.flatMap_cons, hself, hbefore]
        simp only [entriesOf, List.append_assoc, List.cons_append]
      · have hnewc : replaceAt new (e.id :: rest) c =
            ⟨l ++ e.mapContainer (replaceAt new rest) :: r, c.laneSets⟩ := by
          rw [← hmap]
          rfl
        rw [hlast, hnewc, entries_eq, List.flatMap_append, List.flatMap_cons, hentries, hafter]
        simp only [entriesOf, List.append_assoc, List.cons_append]

end Container

namespace Scope

variable {s : Scope}

theorem inventory_eq (s : Scope) :
    s.inventory = s.roots.flatMap (fun r => (Element.root r).entries none) ++
      s.relationships.flatMap (fun r => (Element.relationship r).entries none) := by
  rw [inventory, placed, topLevel, List.map_flatMap, List.flatMap_append, List.flatMap_map,
    List.flatMap_map]
  rfl

theorem entries_process (p : Process) :
    (Element.root (.process p)).entries none =
      Placed.entry ⟨none, .root (.process p)⟩ :: (p.container.entries p.identity.id ++
        (p.artifacts.map Element.artifact).flatMap (Element.entries (some p.identity.id))) := by
  rw [Element.entries_eq, Element.below, Element.children, List.flatMap_append]
  rfl

/-- **Where a container is replaced, the entries before it and those behind it stay.** -/
theorem inventory_replaceContainer (h : Reachable s) {path : List Id} {owner : Id} {c : Container}
    (hc : s.containerAt? path = some c) (hlast : path.getLast? = some owner) :
    ∃ pre post, s.inventory = pre ++ c.entries owner ++ post ∧
      ∀ new, (s.replaceContainer path new).inventory = pre ++ new.entries owner ++ post := by
  obtain ⟨top, rest, p, rfl, hroot, hd⟩ := containerAt?_eq_some_iff.mp hc
  obtain ⟨hmem, hid⟩ := root?_mem hroot
  have hpid : p.identity.id = top := hid
  rw [List.getLast?_cons, Option.some.injEq] at hlast
  subst hpid hlast
  have hcomplete := Process.assembled_iff.mp (h.complete _ hmem)
  obtain ⟨pre, post, hbefore, hafter⟩ := Container.entries_replaceAt hcomplete hd p.identity.id
  obtain ⟨l, r, hlr, hmap⟩ := split_of_find? h.agrees.nodup_roots hroot
  let entriesOf (rs : List Root) : List Entry := rs.flatMap fun r => (Element.root r).entries none
  refine ⟨entriesOf l ++ Placed.entry ⟨none, .root (.process p)⟩ :: pre,
    post ++ (p.artifacts.map Element.artifact).flatMap (Element.entries (some p.identity.id)) ++
      entriesOf r ++ s.relationships.flatMap (fun r => (Element.relationship r).entries none),
    ?_, fun new => ?_⟩
  · rw [inventory_eq, hlr, List.flatMap_append, List.flatMap_cons, entries_process, hbefore]
    simp only [entriesOf, List.append_assoc, List.cons_append]
  · rw [replaceContainer, hroot]
    let q : Root := .process { p with container := Container.replaceAt new rest p.container }
    have hroots : (s.replaceRoot q).roots = l ++ q :: r := hmap fun _ => q
    show (s.replaceRoot q).inventory = _
    rw [inventory_eq, hroots, List.flatMap_append, List.flatMap_cons, entries_process, hafter]
    simp only [entriesOf, List.append_assoc, List.cons_append]
    rfl

/-! ## Entries and elements -/

theorem map_id_inventory (s : Scope) : s.inventory.map Entry.id = s.placed.map Placed.id := by
  rw [inventory, List.map_map]
  rfl

theorem nodup_inventory (h : Reachable s) : (s.inventory.map Entry.id).Nodup := by
  rw [map_id_inventory]
  exact h.agrees.records.nodup

theorem contains_iff_mem_inventory (h : Reachable s) {id : Id} :
    s.registry.contains id = true ↔ id ∈ s.inventory.map Entry.id := by
  rw [map_id_inventory]
  exact h.agrees.records.contains_iff id

/-- The kind that a lookup finds stands in the inventory. -/
theorem exists_get?_kind_iff (h : Reachable s) {id : Id} {k : Kind} :
    (∃ e, s.get? id = some e ∧ e.kind = k) ↔ ∃ x ∈ s.inventory, x.id = id ∧ x.kind = k := by
  simp only [h.agrees.get?_iff]
  constructor
  · rintro ⟨e, ⟨hid, o, hp⟩, hkind⟩
    exact ⟨Placed.entry ⟨o, e⟩, List.mem_map_of_mem hp, hid, hkind⟩
  · rintro ⟨x, hx, hid, hkind⟩
    obtain ⟨⟨o, e⟩, hp, rfl⟩ := List.mem_map.mp hx
    exact ⟨e, ⟨hid, o, hp⟩, hkind⟩

end Scope

end BpmnModel
