import BpmnModel.Proofs.Clashes
import Mathlib.Data.List.Chain
import Mathlib.Data.List.Perm.Subperm
import Mathlib.Logic.Relation

/-!
# The chain of owners above an identifier

The owner under which a tree is registered may be any identifier, and owners may be taken out before
what they own.  So recorded owners can be missing, and they can run in a circle.

* `Registry.OwnedBy` — the recorded owner of an identifier; `Registry.Circles` — the owners above an
  identifier come to one that is above itself.
* `Registry.exists_circle_of_climb` — a climb that takes more steps than there are slots went in a
  circle, so the bound of `Registry.path?` cuts off no path.
* `Registry.PathTo` — a path from a topmost owner down; `pathTo_iff` reads it as a list.
* `Registry.Orderly` — registries that were never given a missing owner nor robbed of one; each of
  their identifiers has a path (`Orderly.grounded`).
* `Registry.paths_end` — when a climb ends, and what it gives.
-/

namespace BpmnModel

namespace Registry

open Relation

variable {r r' : Registry} {id owner : Id} {path below : List Id}

/-- `owner` is recorded as the owner of `id`. -/
def OwnedBy (r : Registry) (id owner : Id) : Prop :=
  ∃ kind, r.slot? id = some ⟨kind, some owner⟩

/-- The owners above `id` run in a circle: one of them, or `id` itself, stands above itself. -/
def Circles (r : Registry) (id : Id) : Prop :=
  ∃ x, ReflTransGen r.OwnedBy id x ∧ TransGen r.OwnedBy x x

theorem OwnedBy.contains (h : r.OwnedBy id owner) : r.contains id = true := by
  obtain ⟨kind, h⟩ := h
  rw [Registry.contains, h]
  rfl

/-! ## Steps of a climb -/

theorem slot?_cases (r : Registry) (id : Id) :
    r.slot? id = none ∨ (∃ kind, r.slot? id = some ⟨kind, none⟩) ∨ ∃ owner, r.OwnedBy id owner := by
  cases h : r.slot? id with
  | none => exact .inl rfl
  | some slot =>
    obtain ⟨kind, _ | owner⟩ := slot
    · exact .inr (.inl ⟨kind, rfl⟩)
    · exact .inr (.inr ⟨owner, kind, h⟩)

theorem climb_missing (h : r.slot? id = none) (steps : Nat) (below : List Id) :
    r.climb (steps + 1) id below = some [] := by
  rw [climb, h]

theorem climb_top {kind : Kind} (h : r.slot? id = some ⟨kind, none⟩) (steps : Nat)
    (below : List Id) : r.climb (steps + 1) id below = some (id :: below) := by
  rw [climb, h]

theorem climb_owned (h : r.OwnedBy id owner) (steps : Nat) (below : List Id) :
    r.climb (steps + 1) id below = r.climb steps owner (id :: below) := by
  obtain ⟨kind, h⟩ := h
  rw [climb, h]

/-- A climb that has ended is not changed by more steps. -/
theorem climb_mono {steps more : Nat} (h : r.climb steps id below = some path)
    (hle : steps ≤ more) : r.climb more id below = some path := by
  induction steps generalizing id below more with
  | zero => cases h
  | succ steps ih =>
    obtain ⟨more, rfl⟩ : ∃ n, more = n + 1 := ⟨more - 1, by omega⟩
    rcases r.slot?_cases id with hnone | ⟨kind, htop⟩ | ⟨owner, howned⟩
    · rw [climb_missing hnone] at h ⊢
      exact h
    · rw [climb_top htop] at h ⊢
      exact h
    · rw [climb_owned howned] at h ⊢
      exact ih h (by omega)

/-! ## Climbs without end -/

theorem Circles.step (h : r.Circles id) : ∃ owner, r.OwnedBy id owner ∧ r.Circles owner := by
  obtain ⟨x, hx, hcircle⟩ := h
  rcases ReflTransGen.cases_head hx with rfl | ⟨owner, howned, hx⟩
  · obtain ⟨owner, howned, hback⟩ := TransGen.head'_iff.mp hcircle
    exact ⟨owner, howned, id, hback, hcircle⟩
  · exact ⟨owner, howned, x, hx, hcircle⟩

theorem climb_of_circles (h : r.Circles id) (steps : Nat) (below : List Id) :
    r.climb steps id below = none := by
  induction steps generalizing id below with
  | zero => rfl
  | succ steps ih =>
    obtain ⟨owner, howned, h⟩ := h.step
    rw [climb_owned howned, ih h]

/-- The identifiers met on a climb that did not end within its steps: each is above those before. -/
theorem exists_met_of_climb {steps : Nat} (h : r.climb steps id below = none) :
    ∃ met : List Id, met.length = steps ∧ met ⊆ r.ids ∧ met.Pairwise (TransGen r.OwnedBy) ∧
      ∀ x ∈ met, ReflTransGen r.OwnedBy id x := by
  induction steps generalizing id below with
  | zero => exact ⟨[], rfl, List.nil_subset _, .nil, nofun⟩
  | succ steps ih =>
    rcases r.slot?_cases id with hnone | ⟨kind, htop⟩ | ⟨owner, howned⟩
    · rw [climb_missing hnone] at h
      cases h
    · rw [climb_top htop] at h
      cases h
    · rw [climb_owned howned] at h
      obtain ⟨met, hlen, hids, hpair, habove⟩ := ih h
      have hid : id ∈ r.ids := contains_iff_ids.mp howned.contains
      refine ⟨id :: met, by rw [List.length_cons, hlen], ?_, ?_, ?_⟩
      · exact List.cons_subset.mpr ⟨hid, hids⟩
      · exact List.pairwise_cons.mpr ⟨fun x hx => .head' howned (habove x hx), hpair⟩
      · exact List.forall_mem_cons.mpr ⟨.refl, fun x hx => .head howned (habove x hx)⟩

/-- **A climb that takes more steps than there are slots went in a circle.** -/
theorem exists_circle_of_climb (h : r.climb (r.slots.length + 1) id below = none) :
    r.Circles id := by
  obtain ⟨met, hlen, hids, hpair, habove⟩ := exists_met_of_climb h
  by_contra hno
  -- without a circle the identifiers met are distinct, and there are too many of them
  have hnd : met.Nodup := by
    refine hpair.imp_of_mem ?_
    rintro x _ hx - hloop rfl
    exact hno ⟨x, habove x hx, hloop⟩
  have hle := (List.subperm_of_subset hnd hids).length_le
  rw [Registry.ids, List.length_map] at hle
  omega

theorem path?_eq_none_iff : r.path? id = none ↔ r.Circles id :=
  ⟨exists_circle_of_climb, fun h => climb_of_circles h _ _⟩

/-- The bound on the steps cuts off no climb that ends. -/
theorem path?_eq_some_iff : r.path? id = some path ↔ ∃ steps, r.climb steps id [] = some path := by
  refine ⟨fun h => ⟨_, h⟩, ?_⟩
  rintro ⟨steps, h⟩
  cases hp : r.path? id with
  | none =>
    rw [climb_of_circles (path?_eq_none_iff.mp hp)] at h
    cases h
  | some q =>
    have hmax := climb_mono h (Nat.le_max_left steps (r.slots.length + 1))
    rw [climb_mono hp (Nat.le_max_right steps (r.slots.length + 1))] at hmax
    exact hmax

/-! ## Paths -/

/-- The identifiers from a topmost owner down to the last one, each the recorded owner of the next. -/
inductive PathTo (r : Registry) : List Id → Id → Prop where
  | top {id : Id} {kind : Kind} (slot : r.slot? id = some ⟨kind, none⟩) : PathTo r [id] id
  | next {path : List Id} {id owner : Id} (above : PathTo r path owner)
    (owned : r.OwnedBy id owner) : PathTo r (path ++ [id]) id

theorem PathTo.ne_nil (h : r.PathTo path id) : path ≠ [] := by
  cases h with
  | top => exact List.cons_ne_nil _ _
  | next => simp

theorem pathTo_iff : r.PathTo path id ↔
    path.getLast? = some id ∧ path.IsChain (fun owner x => r.OwnedBy x owner) ∧
      ∃ first kind, path.head? = some first ∧ r.slot? first = some ⟨kind, none⟩ := by
  constructor
  · intro h
    induction h with
    | top slot => exact ⟨rfl, .singleton _, _, _, rfl, slot⟩
    | @next path id owner above owned ih =>
      obtain ⟨hlast, hchain, first, kind, hfirst, hslot⟩ := ih
      refine ⟨List.getLast?_concat, ?_, first, kind, ?_, hslot⟩
      · refine List.isChain_append.mpr ⟨hchain, .singleton _, ?_⟩
        simp only [hlast, Option.mem_some_iff, List.head?_cons]
        rintro _ rfl _ rfl
        exact owned
      · rw [List.head?_append, hfirst, Option.some_or]
  · rintro ⟨hlast, hchain, first, kind, hfirst, hslot⟩
    induction path using List.reverseRecOn generalizing id with
    | nil => cases hlast
    | append_singleton path x ih =>
      obtain rfl : x = id := by simpa using hlast
      rcases List.eq_nil_or_concat' path with rfl | ⟨init, owner, rfl⟩
      · obtain rfl : x = first := by simpa using hfirst
        exact .top hslot
      · obtain ⟨habove, -, howned⟩ := List.isChain_append.mp hchain
        rw [List.head?_append_of_ne_nil _ (by simp)] at hfirst
        have hpath : r.PathTo (init ++ [owner]) owner := ih List.getLast?_concat habove hfirst
        exact hpath.next (howned owner (by simp) x (by simp))

theorem climb_pathTo (h : r.PathTo path id) (below : List Id) :
    ∃ steps, r.climb steps id below = some (path ++ below) := by
  induction h generalizing below with
  | top slot => exact ⟨1, climb_top slot 0 below⟩
  | @next path id owner above owned ih =>
    obtain ⟨steps, h⟩ := ih (id :: below)
    exact ⟨steps + 1, by rw [climb_owned owned, h, List.append_assoc, List.singleton_append]⟩

theorem climb_of_missing {x : Id} (habove : ReflTransGen r.OwnedBy id x) (hx : r.slot? x = none)
    (below : List Id) : ∃ steps, r.climb steps id below = some [] := by
  induction habove using ReflTransGen.head_induction_on generalizing below with
  | refl => exact ⟨1, climb_missing hx 0 below⟩
  | @head id owner owned _ ih =>
    obtain ⟨steps, h⟩ := ih (id :: below)
    exact ⟨steps + 1, by rw [climb_owned owned, h]⟩

/-- A climb that ends has met a missing owner, or has followed a path to its top. -/
theorem climb_cases {steps : Nat} {result : List Id} (h : r.climb steps id below = some result) :
    (result = [] ∧ ∃ x, ReflTransGen r.OwnedBy id x ∧ r.slot? x = none) ∨
      ∃ path, r.PathTo path id ∧ result = path ++ below := by
  induction steps generalizing id below with
  | zero => cases h
  | succ steps ih =>
    rcases r.slot?_cases id with hnone | ⟨kind, htop⟩ | ⟨owner, howned⟩
    · rw [climb_missing hnone] at h
      cases h
      exact .inl ⟨rfl, id, .refl, hnone⟩
    · rw [climb_top htop] at h
      cases h
      exact .inr ⟨[id], .top htop, rfl⟩
    · rw [climb_owned howned] at h
      rcases ih h with ⟨hnil, x, habove, hx⟩ | ⟨path, hpath, rfl⟩
      · exact .inl ⟨hnil, x, .head howned habove, hx⟩
      · exact .inr ⟨path ++ [id], hpath.next howned, by simp⟩

theorem path?_eq_some_of_pathTo (h : r.PathTo path id) : r.path? id = some path := by
  obtain ⟨steps, h⟩ := climb_pathTo h []
  rw [List.append_nil] at h
  exact path?_eq_some_iff.mpr ⟨steps, h⟩

theorem pathTo_of_path? (h : r.path? id = some path) (hne : path ≠ []) : r.PathTo path id := by
  rcases climb_cases h with ⟨hnil, -⟩ | ⟨q, hq, rfl⟩
  · exact absurd hnil hne
  · rwa [List.append_nil]

theorem path?_eq_nil_iff :
    r.path? id = some [] ↔ ∃ x, ReflTransGen r.OwnedBy id x ∧ r.slot? x = none := by
  constructor
  · intro h
    rcases climb_cases h with ⟨-, hmissing⟩ | ⟨q, hq, hnil⟩
    · exact hmissing
    · rw [List.append_nil] at hnil
      exact absurd hnil.symm hq.ne_nil
  · rintro ⟨x, habove, hx⟩
    exact path?_eq_some_iff.mpr (climb_of_missing habove hx [])

/-! ## Registries in which no owner is missing -/

/-- The registries that are reached when every tree is registered under no owner or under one that
is registered by then, and nothing is taken out that is still recorded as an owner. -/
inductive Orderly : Registry → Prop where
  | empty : Orderly .empty
  | reserve (id : Id) {r : Registry} (h : Orderly r) : Orderly (r.reserve id)
  | register (e : Element) (owner : Option Id) {r r' : Registry} (h : Orderly r)
    (known : ∀ o, owner = some o → r.contains o = true)
    (registered : r.register e owner = .ok r') : Orderly r'
  | unregister (e : Element) {r : Registry} (h : Orderly r)
    (unowned : ∀ id owner, (r.unregister e).2.OwnedBy id owner →
      (r.unregister e).2.contains owner = true) : Orderly (r.unregister e).2

/-- No identifier is registered twice, and each has a path. -/
structure Grounded (r : Registry) : Prop where
  nodup : r.ids.Nodup
  path : ∀ id, r.contains id = true → ∃ path, r.PathTo path id

theorem PathTo.of_slots (h : r.PathTo path id)
    (hslots : ∀ x slot, r.slot? x = some slot → r'.slot? x = some slot) : r'.PathTo path id := by
  induction h with
  | top slot => exact .top (hslots _ _ slot)
  | next above owned ih => exact ih.next (owned.imp fun _ => hslots _ _)

theorem Grounded.register (h : r.Grounded) {e : Element} {owner : Option Id}
    (known : ∀ o, owner = some o → r.contains o = true)
    (registered : r.register e owner = .ok r') : r'.Grounded := by
  obtain ⟨hadmits, rfl⟩ := register_eq_ok_iff.mp registered
  have hgains := gains_append hadmits owner
  set r' : Registry := { r with slots := r.slots ++ (e.placed owner).map Placed.slot }
  have hnew : ∀ id ∈ e.subtree.map Element.id, r.slot? id = none :=
    List.forall_mem_map.mpr fun x hx => (hadmits.2 x hx).1
  have hold : ∀ x slot, r.slot? x = some slot → r'.slot? x = some slot := by
    intro x slot hx
    rw [hgains.kept x fun hmem => ?_, hx]
    rw [hnew x hmem] at hx
    cases hx
  have htop : ∃ path, r'.PathTo path e.id := by
    cases howner : owner with
    | none => exact ⟨_, .top (howner ▸ hgains.top)⟩
    | some o =>
      obtain ⟨path, hpath⟩ := h.path o (known o howner)
      exact ⟨_, .next (hpath.of_slots hold) ⟨_, howner ▸ hgains.top⟩⟩
  -- down the tree, a path to an element goes on to what it owns
  have hbelow : ∀ x ∈ e.subtree, ∃ path, r'.PathTo path x.id := by
    have hall : ∀ p ∈ e.placed owner, p.element ∈ e.subtree ∧ ∃ path, r'.PathTo path p.element.id := by
      refine Element.forall_mem_placed
        (P := fun x => x ∈ e.subtree ∧ ∃ path, r'.PathTo path x.id) ?_ ⟨?_, htop⟩ owner
      · rintro x ⟨hx, path, hpath⟩ c hc
        exact ⟨Element.child_mem_subtree hx hc, _, hpath.next ⟨_, hgains.below x hx c hc⟩⟩
      · exact List.mem_map.mpr ⟨_, e.mem_placed_self none, rfl⟩
    intro x hx
    rw [← e.map_element_placed owner] at hx
    obtain ⟨p, hp, rfl⟩ := List.mem_map.mp hx
    exact (hall p hp).2
  constructor
  · rw [hgains.ids, List.nodup_append]
    refine ⟨h.nodup, hadmits.1, ?_⟩
    rintro id hid _ hmem rfl
    rw [← contains_iff_ids, contains, hnew id hmem] at hid
    cases hid
  · intro id hid
    rw [contains_iff_ids, hgains.ids, List.mem_append] at hid
    rcases hid with hid | hid
    · obtain ⟨path, hpath⟩ := h.path id (contains_iff_ids.mpr hid)
      exact ⟨path, hpath.of_slots hold⟩
    · obtain ⟨x, hx, rfl⟩ := List.mem_map.mp hid
      exact hbelow x hx

theorem slots_unregister_sublist (r : Registry) (e : Element) :
    (r.unregister e).2.slots.Sublist r.slots := by
  rw [unregister_eq]
  generalize e.subtree.map Element.id = ids
  induction ids generalizing r with
  | nil => exact List.Sublist.refl r.slots
  | cons id ids ih =>
    rw [release]
    split
    · exact (ih _).trans List.eraseP_sublist
    · exact ih r

theorem Grounded.unregister (h : r.Grounded) {e : Element}
    (unowned : ∀ id owner, (r.unregister e).2.OwnedBy id owner →
      (r.unregister e).2.contains owner = true) : (r.unregister e).2.Grounded := by
  have hsub := r.slots_unregister_sublist e
  have hback {x : Id} {slot : Slot} (hx : (r.unregister e).2.slot? x = some slot) :
      r.slot? x = some slot :=
    lookup_eq_some_of_nodup h.nodup (hsub.subset (mem_of_slot? hx))
  -- what is still registered has its slot, and so have its owners
  have hkeep {path : List Id} {id : Id} (hpath : r.PathTo path id) :
      (r.unregister e).2.contains id = true → (r.unregister e).2.PathTo path id := by
    induction hpath with
    | top hslot =>
      intro hid
      obtain ⟨slot, hx⟩ := Option.isSome_iff_exists.mp hid
      cases hslot.symm.trans (hback hx)
      exact .top hx
    | next above howned ih =>
      intro hid
      obtain ⟨kind, hslot⟩ := howned
      obtain ⟨slot, hx⟩ := Option.isSome_iff_exists.mp hid
      cases hslot.symm.trans (hback hx)
      exact .next (ih (unowned _ _ ⟨kind, hx⟩)) ⟨kind, hx⟩
  refine ⟨(hsub.map Prod.fst).nodup h.nodup, fun id hid => ?_⟩
  obtain ⟨slot, hx⟩ := Option.isSome_iff_exists.mp hid
  obtain ⟨path, hpath⟩ := h.path id (by rw [contains, hback hx]; rfl)
  exact ⟨path, hkeep hpath hid⟩

/-- **Where no owner was ever missing, every identifier has a path.** -/
theorem Orderly.grounded (h : r.Orderly) : r.Grounded := by
  induction h with
  | empty => exact ⟨List.nodup_nil, nofun⟩
  | reserve id h ih =>
    rename_i r
    have hslots : (r.reserve id).slots = r.slots := by
      unfold Registry.reserve
      split <;> rfl
    have hslot (x : Id) : (r.reserve id).slot? x = r.slot? x := congrArg (List.lookup x) hslots
    refine ⟨?_, fun x hx => ?_⟩
    · rw [Registry.ids, hslots]
      exact ih.nodup
    · rw [contains, hslot] at hx
      obtain ⟨path, hpath⟩ := ih.path x hx
      exact ⟨path, hpath.of_slots fun y slot hy => (hslot y).trans hy⟩
  | register e owner h known registered ih => exact ih.register known registered
  | unregister e h unowned ih => exact ih.unregister unowned

/-! ## When a climb ends -/

/-- **When the climb to a path ends, and what it gives.** It ends unless the owners above the
identifier run in a circle. The path is then empty exactly if the identifier or one of its owners
is missing. Any other path starts at an identifier without owner, goes on from owner to owned, and
ends in the identifier. Where every tree came under a registered owner and no owner was taken out
before what it owns, the climb always ends, with a path to each registered identifier. -/
theorem paths_end (r : Registry) (id : Id) :
    ((∃ steps path, r.climb steps id [] = some path) ↔ ¬ r.Circles id) ∧
      (∀ path, r.path? id = some path ↔ ∃ steps, r.climb steps id [] = some path) ∧
      (r.path? id = some [] ↔
        ∃ x, ReflTransGen r.OwnedBy id x ∧ r.contains x = false) ∧
      (∀ path, path ≠ [] → (r.path? id = some path ↔
        path.getLast? = some id ∧ path.IsChain (fun owner x => r.OwnedBy x owner) ∧
          ∃ first kind, path.head? = some first ∧ r.slot? first = some ⟨kind, none⟩)) ∧
      (r.Orderly → ∃ path, r.path? id = some path ∧ (path = [] ↔ r.contains id = false)) := by
  refine ⟨?_, fun path => path?_eq_some_iff, ?_, ?_, ?_⟩
  · rw [exists_comm]
    simp only [← path?_eq_some_iff, ← path?_eq_none_iff]
    exact Option.ne_none_iff_exists'.symm
  · simp only [contains_eq_false_iff]
    exact path?_eq_nil_iff
  · intro path hne
    rw [← pathTo_iff]
    exact ⟨fun h => pathTo_of_path? h hne, path?_eq_some_of_pathTo⟩
  · intro horderly
    cases hid : r.contains id with
    | false =>
      refine ⟨[], path?_eq_nil_iff.mpr ⟨id, .refl, contains_eq_false_iff.mp hid⟩, by simp⟩
    | true =>
      obtain ⟨path, hpath⟩ := horderly.grounded.path id hid
      exact ⟨path, path?_eq_some_of_pathTo hpath, by simp [hpath.ne_nil]⟩

/-- A process with a sub-process, in which there is a task. -/
def nested : Element :=
  .root (.process { Process.bare ⟨"p"⟩ with
    container := ⟨[.subProcess (.bare ⟨"s"⟩) false [.task (.bare ⟨"t"⟩) .plain] [] []], []⟩ })

/-- What their registration leaves. -/
def nestedSlots : Registry :=
  ⟨[(⟨"p"⟩, ⟨.process, none⟩), (⟨"s"⟩, ⟨.subProcess, some ⟨"p"⟩⟩), (⟨"t"⟩, ⟨.task, some ⟨"s"⟩⟩)], []⟩

/-- The climb from the task leads through the sub-process to the process. -/
theorem paths_end_nested : nestedSlots.Orderly ∧ nestedSlots.contains ⟨"t"⟩ = true ∧
    (∃ path, nestedSlots.path? ⟨"t"⟩ = some path ∧
      (path = [] ↔ nestedSlots.contains ⟨"t"⟩ = false)) ∧
    nestedSlots.path? ⟨"t"⟩ = some [⟨"p"⟩, ⟨"s"⟩, ⟨"t"⟩] := by
  have horderly : nestedSlots.Orderly := .register nested none .empty nofun rfl
  obtain ⟨-, -, -, hpath, hends⟩ := paths_end nestedSlots ⟨"t"⟩
  have hchain : List.IsChain (fun owner x => nestedSlots.OwnedBy x owner)
      [⟨"p"⟩, ⟨"s"⟩, ⟨"t"⟩] := by
    simp only [List.isChain_cons_cons, List.isChain_singleton, and_true]
    exact ⟨⟨.subProcess, rfl⟩, .task, rfl⟩
  refine ⟨horderly, rfl, hends horderly, ?_⟩
  exact (hpath _ (List.cons_ne_nil _ _)).mpr ⟨rfl, hchain, _, .process, rfl, rfl⟩

/-- A task, and the registry that has nothing but this task under an owner. -/
def lone : Element := .flowElement (.task (.bare ⟨"a"⟩) .plain)

def loneSlot (owner : Id) : Registry := ⟨[(⟨"a"⟩, ⟨.task, some owner⟩)], []⟩

/-- Registered identifiers can be without a path. A task under an owner that is not registered has
the empty path; the climb from a task that is its own owner does not end. -/
theorem paths_lost :
    (empty.register lone (some ⟨"gone"⟩) = .ok (loneSlot ⟨"gone"⟩) ∧
        (loneSlot ⟨"gone"⟩).contains ⟨"a"⟩ = true ∧
        (loneSlot ⟨"gone"⟩).path? ⟨"a"⟩ = some []) ∧
      empty.register lone (some ⟨"a"⟩) = .ok (loneSlot ⟨"a"⟩) ∧
        ∀ steps, (loneSlot ⟨"a"⟩).climb steps ⟨"a"⟩ [] = none := by
  refine ⟨⟨rfl, rfl, rfl⟩, rfl, fun steps => climb_of_circles ?_ steps []⟩
  exact ⟨⟨"a"⟩, .refl, .single ⟨.task, rfl⟩⟩

end Registry

end BpmnModel
