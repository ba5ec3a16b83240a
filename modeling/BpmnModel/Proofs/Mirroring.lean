import BpmnModel.Proofs.Atomicity

/-!
# Registry and tree after any run of edits

* `Scope.Mirrors` — what holds between the registry of a scope and its ownership tree.
* `Reachable.mirrors` — it holds after every run of edits.
-/

namespace BpmnModel

namespace Scope

/-- The registry holds exactly what a walk of the tree through children meets, and every lookup
by identifier answers for the tree. -/
structure Mirrors (s : Scope) : Prop where
  /-- The slots are the pairs met on the walk. -/
  slots : s.registry.slots.Perm (s.placed.map Placed.slot)
  /-- The walk starts at the elements without owner and goes on from owners to children. -/
  walk : ∀ p : Placed, p ∈ s.placed ↔
    (p.owner = none ∧ p.element ∈ s.topLevel) ∨
      ∃ o x, ⟨o, x⟩ ∈ s.placed ∧ p.owner = some x.id ∧ p.element ∈ x.children
  /-- No identifier is met twice. -/
  nodup : (s.placed.map Placed.id).Nodup
  /-- The one reserved identifier is that of the scope. -/
  reserved : s.registry.reserved = [s.id]
  /-- The reserved identifier is not met. -/
  fresh : s.id ∉ s.placed.map Placed.id
  /-- The climb along owners ends. It gives the path of owners, and none at all for an identifier
  that is not registered. -/
  path : ∀ id, ∃ path, s.registry.path? id = some path ∧
    (path = [] ↔ s.registry.contains id = false) ∧
    (path ≠ [] → ∃ e : Element, e.id = id ∧ s.OwnerPath path e)
  /-- A lookup finds the element of the tree. -/
  get? : ∀ id e, s.get? id = some e ↔ e.id = id ∧ ∃ o, ⟨o, e⟩ ∈ s.placed
  contains : ∀ id, s.registry.contains id = (s.get? id).isSome
  kindOf? : ∀ id, s.kindOf? id = (s.get? id).map Element.kind
  /-- The container of an element is that of its owner. -/
  containerOf? : ∀ id x c, s.containerOf? id = some (x, c) ↔
    x.container? = some c ∧ (∃ o, ⟨o, x⟩ ∈ s.placed) ∧ ∃ e ∈ x.children, e.id = id
  size : s.size = s.placed.length

namespace Agrees

variable {s : Scope}

theorem mem_placed_iff (p : Placed) :
    p ∈ s.placed ↔ (p.owner = none ∧ p.element ∈ s.topLevel) ∨
      ∃ o x, ⟨o, x⟩ ∈ s.placed ∧ p.owner = some x.id ∧ p.element ∈ x.children := by
  obtain ⟨owner, e⟩ := p
  constructor
  · intro hp
    cases owner with
    | none => exact .inl ⟨rfl, topLevel_of_mem_placed hp⟩
    | some id =>
      obtain ⟨o, x, hx, rfl, hchild⟩ := owner_of_mem_placed hp
      exact .inr ⟨o, x, hx, rfl, hchild⟩
  · rintro (⟨rfl, htop⟩ | ⟨o, x, hx, rfl, hchild⟩)
    · exact mem_placed_of_topLevel htop
    · exact child_mem_placed hx hchild

theorem exists_path (h : s.Agrees) (id : Id) :
    ∃ path, s.registry.path? id = some path ∧ (path = [] ↔ s.registry.contains id = false) ∧
      (path ≠ [] → ∃ e : Element, e.id = id ∧ s.OwnerPath path e) := by
  cases hc : s.registry.contains id with
  | false =>
    refine ⟨[], Registry.Records.path?_of_unregistered hc, by simp, fun hne => absurd rfl hne⟩
  | true =>
    obtain ⟨p, hp, rfl⟩ := List.mem_map.mp ((h.records.contains_iff id).mp hc)
    obtain ⟨path, hpath⟩ := exists_ownerPath hp
    refine ⟨path, h.records.path?_eq hpath, ?_, fun _ => ⟨p.element, rfl, hpath⟩⟩
    simp [hpath.ne_nil]

theorem get?_iff (h : s.Agrees) (id : Id) (e : Element) :
    s.get? id = some e ↔ e.id = id ∧ ∃ o, ⟨o, e⟩ ∈ s.placed := by
  rw [h.get?_eq_some_iff]
  constructor
  · rintro ⟨hid, path, hpath⟩
    exact ⟨hid, hpath.mem_placed⟩
  · rintro ⟨hid, o, ho⟩
    exact ⟨hid, exists_ownerPath ho⟩

theorem slot?_eq_of_get? (h : s.Agrees) (id : Id) :
    (∃ e o, s.get? id = some e ∧ s.registry.slot? id = some ⟨e.kind, o⟩ ∧ ⟨o, e⟩ ∈ s.placed) ∨
      s.get? id = none ∧ s.registry.slot? id = none := by
  by_cases hid : id ∈ s.placed.map Placed.id
  · obtain ⟨⟨o, e⟩, hp, rfl⟩ := List.mem_map.mp hid
    exact .inl ⟨e, o, (h.get?_iff _ _).mpr ⟨rfl, o, hp⟩, h.records.slot?_eq hp, hp⟩
  · refine .inr ⟨?_, h.records.slot?_eq_none hid⟩
    cases hg : s.get? id with
    | none => rfl
    | some e =>
      obtain ⟨rfl, o, ho⟩ := (h.get?_iff _ _).mp hg
      exact absurd (List.mem_map_of_mem ho) hid

theorem containerOf?_iff (h : s.Agrees) (id : Id) (x : Element) (c : Container) :
    s.containerOf? id = some (x, c) ↔
      x.container? = some c ∧ (∃ o, ⟨o, x⟩ ∈ s.placed) ∧ ∃ e ∈ x.children, e.id = id := by
  have hrun : s.containerOf? id = (s.registry.slot? id).bind fun slot => slot.owner.bind fun owner =>
      (s.get? owner).bind fun e => e.container?.bind fun c => some (e, c) := rfl
  rw [hrun]
  simp only [Option.bind_eq_some_iff, Option.some.injEq, Prod.mk.injEq]
  constructor
  · rintro ⟨slot, hslot, owner, howner, y, hy, k, hk, rfl, rfl⟩
    obtain ⟨⟨o, e⟩, hp, rfl, rfl⟩ := h.records.exists_of_slot? hslot
    cases howner
    obtain ⟨o', z, hz, rfl, hchild⟩ := owner_of_mem_placed hp
    obtain ⟨hid, o'', ho''⟩ := (h.get?_iff _ _).mp hy
    have := h.eq_of_id ho'' hz hid
    subst this
    exact ⟨hk, ⟨o', hz⟩, e, hchild, rfl⟩
  · rintro ⟨hk, ⟨o, hx⟩, e, hchild, rfl⟩
    have hslot := h.records.slot?_eq (child_mem_placed hx hchild)
    exact ⟨_, hslot, x.id, rfl, x, (h.get?_iff _ _).mpr ⟨rfl, o, hx⟩, c, hk, rfl, rfl⟩

theorem mirrors (h : s.Agrees) : s.Mirrors where
  slots := h.records.slots
  walk := mem_placed_iff
  nodup := h.records.nodup
  reserved := h.reserved
  fresh := h.id_not_mem
  path := h.exists_path
  get? := h.get?_iff
  contains id := by
    rw [Registry.contains]
    rcases h.slot?_eq_of_get? id with ⟨e, o, hg, hs, -⟩ | ⟨hg, hs⟩ <;> rw [hg, hs] <;> rfl
  kindOf? id := by
    rw [kindOf?]
    rcases h.slot?_eq_of_get? id with ⟨e, o, hg, hs, -⟩ | ⟨hg, hs⟩ <;> rw [hg, hs] <;> rfl
  containerOf? := h.containerOf?_iff
  size := by
    rw [size, Registry.size, h.records.slots.length_eq, List.length_map]

end Agrees

end Scope

/-- **After any run of edits, refused ones included, the registry mirrors the tree.** -/
theorem Reachable.mirrors {s : Scope} (h : Reachable s) : s.Mirrors :=
  h.agrees.mirrors

end BpmnModel
