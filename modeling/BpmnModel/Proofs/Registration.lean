import BpmnModel.Proofs.Ownership
import Mathlib.Data.List.Nodup

/-!
# What a registry records of a forest

`Registry.Records r tree` — the slots of `r` are those of the walk `tree`, in some order, and no
identifier stands twice or is reserved.

* `Registry.registerAll_eq_ok_iff` — registration succeeds exactly when the identifiers are fresh.
* `Registry.unregister_eq` — an element is taken out by its identifiers, one after the other.
* `Records.register`, `Records.unregister` — what both do to a recorded forest.
* `Records.path?_eq` — the path in the registry is the path of owners in the tree, so the climb ends.
* `Registry.Same` — equality of registries as maps, which the answers of a registry respect.
-/

namespace BpmnModel

theorem Element.map_id_placed (e : Element) (o o' : Option Id) :
    (e.placed o).map Placed.id = (e.placed o').map Placed.id := by
  rw [map_id_placed_eq_subtree, map_id_placed_eq_subtree]

section Lookups

variable {κ β : Type} [BEq κ] [LawfulBEq κ] {l l' : List (κ × β)} {k : κ} {v : β}

theorem mem_of_lookup_eq_some (h : l.lookup k = some v) : (k, v) ∈ l := by
  obtain ⟨before, after, rfl, -⟩ := List.lookup_eq_some_iff.mp h
  simp

/-- Among pairs with distinct keys, the lookup of a key finds the pair that has it. -/
theorem lookup_eq_some_of_nodup (h : (l.map Prod.fst).Nodup) (hm : (k, v) ∈ l) :
    l.lookup k = some v := by
  induction l with
  | nil => cases hm
  | cons x l ih =>
    rw [List.map_cons, List.nodup_cons] at h
    rw [List.lookup_cons]
    rcases List.mem_cons.mp hm with rfl | hm
    · simp
    · have hne : (k == x.1) = false := by
        rw [beq_eq_false_iff_ne]
        rintro rfl
        exact h.1 (List.mem_map.mpr ⟨(x.1, v), hm, rfl⟩)
      rw [hne]
      exact ih h.2 hm

/-- Where keys are distinct a lookup does not depend on the order. -/
theorem lookup_eq_of_perm (hp : l.Perm l') (hnd : (l.map Prod.fst).Nodup) (k : κ) :
    l.lookup k = l'.lookup k := by
  have hnd' : (l'.map Prod.fst).Nodup := (hp.map Prod.fst).nodup_iff.mp hnd
  ext v
  constructor
  · exact fun h => lookup_eq_some_of_nodup hnd' (hp.mem_iff.mp (mem_of_lookup_eq_some h))
  · exact fun h => lookup_eq_some_of_nodup hnd (hp.mem_iff.mpr (mem_of_lookup_eq_some h))

end Lookups

namespace Registry

/-! ## Registration -/

theorem contains_eq_false_iff {r : Registry} {id : Id} :
    r.contains id = false ↔ r.slot? id = none := by
  rw [contains, Option.isSome_eq_false_iff, Option.isNone_iff_eq_none]

theorem isTaken_eq_false_iff {r : Registry} {id : Id} :
    r.isTaken id = false ↔ r.slot? id = none ∧ id ∉ r.reserved := by
  rw [isTaken, Bool.or_eq_false_iff, contains_eq_false_iff, List.contains_eq_mem,
    decide_eq_false_iff_not]

theorem firstClash_eq_none_iff (r : Registry) (seen ids : List Id) :
    r.firstClash seen ids = none ↔
      ids.Nodup ∧ ∀ id ∈ ids, r.isTaken id = false ∧ id ∉ seen := by
  induction ids generalizing seen with
  | nil => simp [firstClash]
  | cons id ids ih =>
    rw [firstClash]
    by_cases ht : (r.isTaken id || seen.contains id) = true
    · rw [if_pos ht]
      simp only [reduceCtorEq, false_iff, not_and]
      intro _ hall
      obtain ⟨h1, h2⟩ := hall id (by simp)
      rw [h1, Bool.false_or, List.contains_iff_mem] at ht
      exact h2 ht
    · rw [if_neg ht, ih]
      simp only [Bool.or_eq_true, not_or, Bool.not_eq_true, List.contains_eq_mem,
        decide_eq_false_iff_not] at ht
      constructor
      · rintro ⟨hnd, hall⟩
        refine ⟨List.nodup_cons.mpr ⟨fun hm => (hall id hm).2 (by simp), hnd⟩, ?_⟩
        intro x hx
        rcases List.mem_cons.mp hx with rfl | hx
        · exact ht
        · exact ⟨(hall x hx).1, fun hs => (hall x hx).2 (by simp [hs])⟩
      · rintro ⟨hnd, hall⟩
        obtain ⟨hid, hnd⟩ := List.nodup_cons.mp hnd
        refine ⟨hnd, fun x hx => ⟨(hall x (by simp [hx])).1, ?_⟩⟩
        rw [List.mem_cons, not_or]
        refine ⟨?_, (hall x (by simp [hx])).2⟩
        rintro rfl
        exact hid hx

theorem registerAll_eq_ok_iff {r r' : Registry} {tree : List Placed} :
    r.registerAll tree = .ok r' ↔
      ((tree.map Placed.id).Nodup ∧ ∀ p ∈ tree, r.isTaken p.id = false) ∧
        r' = { r with slots := r.slots ++ tree.map Placed.slot } := by
  have hiff := r.firstClash_eq_none_iff [] (tree.map Placed.id)
  simp only [List.not_mem_nil, not_false_eq_true, and_true, List.forall_mem_map] at hiff
  unfold registerAll
  cases hc : r.firstClash [] (tree.map Placed.id) with
  | some id =>
    simp only [reduceCtorEq, false_iff, not_and]
    intro hfresh
    rw [hc] at hiff
    exact absurd (hiff.mpr hfresh) (by simp)
  | none =>
    simp only [Except.ok.injEq]
    constructor
    · rintro rfl
      exact ⟨hiff.mp hc, rfl⟩
    · rintro ⟨-, rfl⟩
      rfl

theorem registerAll_nil (r : Registry) : r.registerAll [] = .ok r := by
  simp [registerAll, firstClash]

/-- What is taken after a registration was taken before or is registered. -/
theorem isTaken_append (r : Registry) (tree : List Placed) (id : Id) :
    isTaken { r with slots := r.slots ++ tree.map Placed.slot } id = false ↔
      r.isTaken id = false ∧ id ∉ tree.map Placed.id := by
  have hnew : ((tree.map Placed.slot).lookup id).isSome = true ↔ id ∈ tree.map Placed.id := by
    simp only [List.lookup_isSome_iff, List.mem_map, exists_exists_and_eq_and, beq_iff_eq]
    exact exists_congr fun p => and_congr_right fun _ => eq_comm
  rw [← hnew]
  simp only [isTaken, contains, slot?, List.lookup_append, Option.isSome_or, Bool.or_eq_false_iff,
    Bool.not_eq_true]
  tauto

/-- Two trees are registered together exactly if they can be registered one after the other. -/
theorem registerAll_append {r r' : Registry} {tree tree' : List Placed} :
    r.registerAll (tree ++ tree') = .ok r' ↔
      ∃ r₁, r.registerAll tree = .ok r₁ ∧ r₁.registerAll tree' = .ok r' := by
  simp only [registerAll_eq_ok_iff, List.map_append, List.nodup_append, List.forall_mem_append]
  constructor
  · rintro ⟨⟨⟨hnd, hnd', hdisj⟩, hfree, hfree'⟩, rfl⟩
    refine ⟨_, ⟨⟨hnd, hfree⟩, rfl⟩, ⟨hnd', fun p hp => ?_⟩, by rw [List.append_assoc]⟩
    refine (isTaken_append r tree p.id).mpr ⟨hfree' p hp, fun hmem => ?_⟩
    exact hdisj _ hmem _ (List.mem_map_of_mem hp) rfl
  · rintro ⟨_, ⟨⟨hnd, hfree⟩, rfl⟩, ⟨hnd', hfree'⟩, rfl⟩
    have hnew := fun p hp => (isTaken_append r tree p.id).mp (hfree' p hp)
    refine ⟨⟨⟨hnd, hnd', ?_⟩, hfree, fun p hp => (hnew p hp).1⟩, by rw [List.append_assoc]⟩
    rintro id hmem id' hmem' rfl
    obtain ⟨p, hp, rfl⟩ := List.mem_map.mp hmem'
    exact (hnew p hp).2 hmem

/-- Two trees are refused together if one of them is refused after the other. -/
theorem registerAll_append_error {r : Registry} {tree tree' : List Placed}
    (h : (∃ clash, r.registerAll tree = .error clash) ∨
      ∃ r₁, r.registerAll tree = .ok r₁ ∧ ∃ clash, r₁.registerAll tree' = .error clash) :
    ∃ clash, r.registerAll (tree ++ tree') = .error clash := by
  cases hall : r.registerAll (tree ++ tree') with
  | error clash => exact ⟨clash, rfl⟩
  | ok r' =>
    obtain ⟨r₁, hfirst, hsecond⟩ := registerAll_append.mp hall
    rcases h with ⟨clash, hclash⟩ | ⟨r₂, hfirst', clash, hclash⟩
    · cases hclash.symm.trans hfirst
    · cases hfirst'.symm.trans hfirst
      cases hclash.symm.trans hsecond

/-! ## Removal -/

/-- Takes the identifiers out one by one, with the number of those that were registered. -/
def release (r : Registry) : List Id → Nat × Registry
  | [] => (0, r)
  | id :: ids =>
    if r.contains id then
      let rest := (r.erase id).release ids
      (rest.1 + 1, rest.2)
    else r.release ids

theorem release_of_contains {r : Registry} {id : Id} {ids : List Id} (h : r.contains id = true) :
    r.release (id :: ids) =
      (((r.erase id).release ids).1 + 1, ((r.erase id).release ids).2) := by
  rw [release, if_pos h]

theorem unregister_eq (r : Registry) (e : Element) :
    r.unregister e = r.release (e.subtree.map Element.id) := by
  suffices h : ∀ (xs : List Element) (n : Nat) (r : Registry),
      xs.foldl (fun (acc : Nat × Registry) x =>
        if acc.2.contains x.id then (acc.1 + 1, acc.2.erase x.id) else acc) (n, r) =
          (n + (r.release (xs.map Element.id)).1, (r.release (xs.map Element.id)).2) by
    refine (h e.subtree 0 r).trans ?_
    rw [Nat.zero_add]
  intro xs
  induction xs with
  | nil => exact fun n r => rfl
  | cons x xs ih =>
    intro n r
    rw [List.foldl_cons, List.map_cons, release]
    split
    · rw [ih, Nat.add_right_comm, Nat.add_assoc]
    · exact ih n r

/-! ## Recorded forests -/

theorem mem_of_slot? {r : Registry} {id : Id} {slot : Slot} (h : r.slot? id = some slot) :
    (id, slot) ∈ r.slots :=
  mem_of_lookup_eq_some h

/-- The slots are those of the walk, its identifiers are distinct and none is reserved. -/
structure Records (r : Registry) (tree : List Placed) : Prop where
  slots : r.slots.Perm (tree.map Placed.slot)
  nodup : (tree.map Placed.id).Nodup
  free : ∀ p ∈ tree, p.id ∉ r.reserved

theorem map_fst_slot (tree : List Placed) :
    (tree.map Placed.slot).map Prod.fst = tree.map Placed.id := by
  rw [List.map_map]
  rfl

namespace Records

variable {r r' : Registry} {tree new : List Placed}

/-- Only identifiers, kinds and owners matter, in any order. -/
theorem perm (h : r.Records tree) (hp : (tree.map Placed.slot).Perm (new.map Placed.slot)) :
    r.Records new := by
  have hids : (tree.map Placed.id).Perm (new.map Placed.id) := by
    rw [← map_fst_slot, ← map_fst_slot]
    exact hp.map Prod.fst
  refine ⟨h.slots.trans hp, hids.nodup_iff.mp h.nodup, ?_⟩
  intro p hm
  obtain ⟨q, hq, hqp⟩ := List.mem_map.mp (hids.mem_iff.mpr (List.mem_map_of_mem hm))
  rw [← hqp]
  exact h.free q hq

theorem nodup_keys (h : r.Records tree) : (r.slots.map Prod.fst).Nodup := by
  rw [(h.slots.map Prod.fst).nodup_iff, map_fst_slot]
  exact h.nodup

theorem slot?_eq (h : r.Records tree) {p : Placed} (hp : p ∈ tree) :
    r.slot? p.id = some ⟨p.element.kind, p.owner⟩ :=
  lookup_eq_some_of_nodup h.nodup_keys (h.slots.mem_iff.mpr (List.mem_map_of_mem hp))

theorem exists_of_slot? (h : r.Records tree) {id : Id} {slot : Slot}
    (hs : r.slot? id = some slot) : ∃ p ∈ tree, p.id = id ∧ slot = ⟨p.element.kind, p.owner⟩ := by
  obtain ⟨p, hp, heq⟩ := List.mem_map.mp (h.slots.mem_iff.mp (mem_of_slot? hs))
  cases heq
  exact ⟨p, hp, rfl, rfl⟩

theorem contains_iff (h : r.Records tree) (id : Id) :
    r.contains id = true ↔ id ∈ tree.map Placed.id := by
  rw [contains, Option.isSome_iff_exists, List.mem_map]
  constructor
  · rintro ⟨slot, hs⟩
    obtain ⟨p, hp, hid, -⟩ := h.exists_of_slot? hs
    exact ⟨p, hp, hid⟩
  · rintro ⟨p, hp, rfl⟩
    exact ⟨_, h.slot?_eq hp⟩

theorem slot?_eq_none (h : r.Records tree) {id : Id} (hid : id ∉ tree.map Placed.id) :
    r.slot? id = none := by
  cases hs : r.slot? id with
  | none => rfl
  | some slot =>
    obtain ⟨p, hp, rfl, -⟩ := h.exists_of_slot? hs
    exact absurd (List.mem_map_of_mem hp) hid

/-- Two elements of the walk with one identifier are one. -/
theorem eq_of_id (h : r.Records tree) {p q : Placed} (hp : p ∈ tree) (hq : q ∈ tree)
    (hid : p.id = q.id) : p = q :=
  List.inj_on_of_nodup_map h.nodup hp hq hid

/-- A forest grows by the registered tree. -/
theorem register (h : r.Records tree) (hr : r.registerAll new = .ok r') :
    r'.Records (tree ++ new) ∧ r'.reserved = r.reserved := by
  obtain ⟨⟨hnd, hfree⟩, rfl⟩ := registerAll_eq_ok_iff.mp hr
  have htaken : ∀ p ∈ new, p.id ∉ tree.map Placed.id ∧ p.id ∉ r.reserved := by
    intro p hp
    obtain ⟨hnone, hreserved⟩ := isTaken_eq_false_iff.mp (hfree p hp)
    refine ⟨fun hm => ?_, hreserved⟩
    have hcontains := (h.contains_iff _).mpr hm
    rw [contains_eq_false_iff.mpr hnone] at hcontains
    cases hcontains
  refine ⟨⟨?_, ?_, ?_⟩, rfl⟩
  · rw [List.map_append]
    exact h.slots.append_right _
  · rw [List.map_append, List.nodup_append]
    refine ⟨h.nodup, hnd, ?_⟩
    rintro x hx y hy rfl
    obtain ⟨p, hp, rfl⟩ := List.mem_map.mp hy
    exact (htaken p hp).1 hx
  · intro p hp
    rcases List.mem_append.mp hp with hp | hp
    · exact h.free p hp
    · exact (htaken p hp).2

theorem registerAll_of_fresh (h : r.Records tree) (hall : ((tree ++ new).map Placed.id).Nodup)
    (hfree : ∀ p ∈ new, p.id ∉ r.reserved) :
    r.registerAll new = .ok { r with slots := r.slots ++ new.map Placed.slot } := by
  rw [List.map_append, List.nodup_append] at hall
  obtain ⟨-, hnd, hdisj⟩ := hall
  refine registerAll_eq_ok_iff.mpr ⟨⟨hnd, fun p hp => ?_⟩, rfl⟩
  have hnew : p.id ∉ tree.map Placed.id := fun hm => hdisj _ hm _ (List.mem_map_of_mem hp) rfl
  exact isTaken_eq_false_iff.mpr ⟨h.slot?_eq_none hnew, hfree p hp⟩

/-! ## What is taken out of a forest -/

theorem erase {p : Placed} {rest : List Placed} (h : r.Records (tree ++ p :: rest)) :
    (r.erase p.id).Records (tree ++ rest) := by
  have hnd := h.nodup
  simp only [List.map_append, List.map_cons] at hnd
  have hperm : (tree.map Placed.id ++ p.id :: rest.map Placed.id).Perm
      (p.id :: (tree.map Placed.id ++ rest.map Placed.id)) := List.perm_middle
  rw [hperm.nodup_iff, List.nodup_cons, ← List.map_append] at hnd
  refine ⟨?_, hnd.2, fun q hq => h.free q ?_⟩
  · have hpair : r.slots.Pairwise fun a b =>
        decide (a.1 = p.id) = true → decide (b.1 = p.id) = true → False := by
      refine List.Pairwise.imp ?_ (List.pairwise_map.mp h.nodup_keys)
      intro a b hab ha hb
      rw [decide_eq_true_iff] at ha hb
      exact hab (ha.trans hb.symm)
    have hslots := h.slots.eraseP (fun a => decide (a.1 = p.id)) hpair
    have hleft : ∀ a ∈ tree.map Placed.slot, ¬ decide (a.1 = p.id) = true := by
      intro a ha
      obtain ⟨q, hq, rfl⟩ := List.mem_map.mp ha
      rw [decide_eq_true_iff]
      intro hqp
      exact hnd.1 (hqp ▸ List.mem_map_of_mem (List.mem_append_left _ hq))
    rw [List.map_append, List.map_cons, List.eraseP_append_right _ hleft,
      List.eraseP_cons_of_pos (by simp [Placed.slot]), ← List.map_append] at hslots
    exact hslots
  · rcases List.mem_append.mp hq with hq | hq
    · exact List.mem_append_left _ hq
    · exact List.mem_append_right _ (List.mem_cons_of_mem _ hq)

/-- A forest loses the tree that is taken out. -/
theorem unregister {e : Element} {owner : Option Id}
    (h : r.Records (tree ++ e.placed owner)) :
    (r.unregister e).2.Records tree ∧ (r.unregister e).2.reserved = r.reserved := by
  rw [unregister_eq, ← e.map_id_placed_eq_subtree owner]
  generalize e.placed owner = ps at h
  induction ps generalizing r with
  | nil =>
    rw [List.append_nil] at h
    exact ⟨h, rfl⟩
  | cons p ps ih =>
    have hc : r.contains p.id = true := (h.contains_iff _).mpr (by simp)
    rw [List.map_cons, release_of_contains hc]
    exact ih h.erase

/-! ## Paths -/

variable {s : Scope} {path : List Id} {e : Element}

theorem climb_eq (h : r.Records s.placed) (he : s.OwnerPath path e) (steps : Nat)
    (below : List Id) : r.climb (path.length + steps) e.id below = some (path ++ below) := by
  induction he generalizing steps below with
  | @top e htop =>
    have hs : r.slot? e.id = some ⟨e.kind, none⟩ :=
      h.slot?_eq (Scope.mem_placed_of_topLevel htop)
    rw [List.length_singleton, Nat.add_comm, climb, hs]
    rfl
  | @child path e c above hc ih =>
    obtain ⟨o, ho⟩ := above.mem_placed
    have hs : r.slot? c.id = some ⟨c.kind, some e.id⟩ :=
      h.slot?_eq (Scope.child_mem_placed ho hc)
    have hlen : (path ++ [c.id]).length + steps = path.length + steps + 1 := by
      rw [List.length_append, List.length_singleton]
      omega
    rw [hlen, climb, hs]
    simp only
    rw [ih, List.append_assoc]
    rfl

/-- **The path that the registry gives is the path of owners in the tree.** -/
theorem path?_eq (h : r.Records s.placed) (he : s.OwnerPath path e) :
    r.path? e.id = some path := by
  have hlen : r.slots.length = s.placed.length := by
    rw [h.slots.length_eq, List.length_map]
  have hle := he.length_le
  have hsteps : r.slots.length + 1 = path.length + (s.placed.length + 1 - path.length) := by
    omega
  rw [path?, hsteps, h.climb_eq he, List.append_nil]

theorem path?_of_unregistered {id : Id} (hid : r.contains id = false) : r.path? id = some [] := by
  rw [path?, climb, contains_eq_false_iff.mp hid]

theorem path_eq (h : r.Records s.placed) (he : s.OwnerPath path e) : r.path e.id = path := by
  rw [Registry.path, h.path?_eq he]
  rfl

end Records

/-! ## Registries as maps -/

/-- The registries hold the same slots, in any order, and reserve the same identifiers. -/
structure Same (r r' : Registry) : Prop where
  slots : r.slots.Perm r'.slots
  reserved : r.reserved = r'.reserved

variable {r r' : Registry} {tree tree' : List Placed}

theorem Same.symm (h : r.Same r') : r'.Same r := ⟨h.slots.symm, h.reserved.symm⟩

/-- Trees with the same slots can be registered alike. -/
theorem registerAll_perm (hp : (tree.map Placed.slot).Perm (tree'.map Placed.slot))
    (h : r.registerAll tree = .ok r') : ∃ r'', r.registerAll tree' = .ok r'' ∧ r'.Same r'' := by
  obtain ⟨⟨hnd, hfree⟩, rfl⟩ := registerAll_eq_ok_iff.mp h
  have hids : (tree.map Placed.id).Perm (tree'.map Placed.id) := by
    rw [← map_fst_slot, ← map_fst_slot]
    exact hp.map Prod.fst
  refine ⟨_, registerAll_eq_ok_iff.mpr ⟨⟨hids.nodup_iff.mp hnd, fun p hp => ?_⟩, rfl⟩,
    hp.append_left _, rfl⟩
  obtain ⟨q, hq, hqp⟩ := List.mem_map.mp (hids.mem_iff.mpr (List.mem_map_of_mem hp))
  rw [← hqp]
  exact hfree q hq

/-- Recorded forests with the same slots leave the same registry behind. -/
theorem Records.same (h : r.Records tree) (h' : r'.Records tree')
    (hp : (tree.map Placed.slot).Perm (tree'.map Placed.slot))
    (hreserved : r.reserved = r'.reserved) :
    r.Same r' :=
  ⟨(h.slots.trans hp).trans h'.slots.symm, hreserved⟩

namespace Same

theorem size_eq (h : r.Same r') : r.size = r'.size := h.slots.length_eq

/-- Where no identifier is registered twice the order of registration cannot be told. -/
theorem slot?_eq (h : r.Same r') (hnd : (r.slots.map Prod.fst).Nodup) (id : Id) :
    r.slot? id = r'.slot? id :=
  lookup_eq_of_perm h.slots hnd id

theorem isTaken_eq (h : r.Same r') (hnd : (r.slots.map Prod.fst).Nodup) (id : Id) :
    r.isTaken id = r'.isTaken id := by
  rw [isTaken, isTaken, contains, contains, h.slot?_eq hnd, h.reserved]

theorem climb_eq (h : r.Same r') (hnd : (r.slots.map Prod.fst).Nodup) (steps : Nat) (id : Id)
    (below : List Id) : r.climb steps id below = r'.climb steps id below := by
  induction steps generalizing id below with
  | zero => rfl
  | succ steps ih =>
    rw [climb, climb, h.slot?_eq hnd]
    simp only [ih]

theorem path?_eq (h : r.Same r') (hnd : (r.slots.map Prod.fst).Nodup) (id : Id) :
    r.path? id = r'.path? id := by
  rw [path?, path?, h.climb_eq hnd, h.slots.length_eq]

end Same

end Registry

end BpmnModel
