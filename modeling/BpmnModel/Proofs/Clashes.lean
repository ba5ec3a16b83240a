import BpmnModel.Proofs.Registration
import BpmnModel.Scope.Edit

/-!
# Registration of a whole tree, or of nothing

An element is registered with all that it owns.  Identifiers may stand in the tree more than once, at
any distance, and the registry may hold anything.

* `Registry.Admits` — no identifier of the tree is in use and none stands there twice.
* `Registry.FirstClash` — the first identifier of a list that is taken or stands earlier in it; a
  refusal names it (`firstClash_of_register`).
* `Registry.Gains` — one slot more for each element of the tree, and no other change.
* `Registry.release_appended` — slots that were appended come off again one by one.
* `Registry.register_or_refuse` — which trees are registered, what that does, and what is named in a
  refusal.
-/

namespace BpmnModel

namespace Registry

variable {r r' : Registry} {e : Element} {owner : Option Id}

/-! ## Clashes -/

/-- The tree of `e` can be registered: its identifiers are distinct, and none is registered or
reserved. -/
def Admits (r : Registry) (e : Element) : Prop :=
  (e.subtree.map Element.id).Nodup ∧
    ∀ x ∈ e.subtree, r.slot? x.id = none ∧ x.id ∉ r.reserved

/-- `id` is the first identifier of the list that is taken or stands earlier in the list. -/
def FirstClash (r : Registry) (ids : List Id) (id : Id) : Prop :=
  ∃ before after, ids = before ++ id :: after ∧ (r.isTaken id = true ∨ id ∈ before) ∧
    before.Nodup ∧ ∀ x ∈ before, r.isTaken x = false

theorem contains_iff_ids {id : Id} : r.contains id = true ↔ id ∈ r.ids := by
  rw [contains, slot?, List.lookup_isSome_iff, Registry.ids, List.mem_map]
  exact exists_congr fun p => and_congr_right fun _ => by rw [beq_iff_eq, eq_comm]

/-- What a scan finds is the first clash, also with what was seen before. -/
theorem firstClash_of_eq_some {seen ids : List Id} {id : Id} (h : r.firstClash seen ids = some id) :
    ∃ before after, ids = before ++ id :: after ∧
      (r.isTaken id = true ∨ id ∈ seen ∨ id ∈ before) ∧
      before.Nodup ∧ ∀ x ∈ before, r.isTaken x = false ∧ x ∉ seen := by
  induction ids generalizing seen with
  | nil => cases h
  | cons x ids ih =>
    rw [firstClash] at h
    split at h
    · rename_i hclash
      cases h
      rw [Bool.or_eq_true, List.contains_iff_mem] at hclash
      exact ⟨[], ids, rfl, hclash.imp_right .inl, List.nodup_nil, List.forall_mem_nil _⟩
    · rename_i hfree
      simp only [Bool.or_eq_true, not_or, Bool.not_eq_true, List.contains_iff_mem] at hfree
      obtain ⟨before, after, rfl, hid, hnd, hbefore⟩ := ih h
      refine ⟨x :: before, after, rfl, ?_, ?_, ?_⟩
      · rcases hid with htaken | hseen | hmem
        · exact .inl htaken
        · rcases List.mem_cons.mp hseen with rfl | hseen
          · exact .inr (.inr List.mem_cons_self)
          · exact .inr (.inl hseen)
        · exact .inr (.inr (List.mem_cons_of_mem x hmem))
      · exact List.nodup_cons.mpr ⟨fun hx => (hbefore x hx).2 List.mem_cons_self, hnd⟩
      · intro y hy
        rcases List.mem_cons.mp hy with rfl | hy
        · exact hfree
        · exact ⟨(hbefore y hy).1, fun hs => (hbefore y hy).2 (List.mem_cons_of_mem x hs)⟩

theorem admits_iff (owner : Option Id) :
    r.Admits e ↔ ((e.placed owner).map Placed.id).Nodup ∧
      ∀ p ∈ e.placed owner, r.isTaken p.id = false := by
  simp only [isTaken_eq_false_iff, Admits, ← e.map_element_placed owner, List.map_map,
    List.forall_mem_map]
  rfl

/-- **A tree is registered exactly if none of its identifiers clashes.** -/
theorem register_eq_ok_iff : r.register e owner = .ok r' ↔
    r.Admits e ∧ r' = { r with slots := r.slots ++ (e.placed owner).map Placed.slot } := by
  rw [register, registerAll_eq_ok_iff, admits_iff owner]

/-- A refusal names the first clash in the order of the tree. -/
theorem firstClash_of_register {refusal : ModelError} (h : r.register e owner = .error refusal) :
    ∃ id, refusal = .duplicateId id ∧ r.FirstClash (e.subtree.map Element.id) id := by
  rw [register, registerAll] at h
  split at h
  · rename_i id hclash
    cases h
    rw [e.map_id_placed_eq_subtree] at hclash
    obtain ⟨before, after, hids, hid, hnd, hbefore⟩ := firstClash_of_eq_some hclash
    refine ⟨id, rfl, before, after, hids, ?_, hnd, fun x hx => (hbefore x hx).1⟩
    exact hid.imp_right fun h => h.resolve_left List.not_mem_nil
  · cases h

/-! ## What a registration adds -/

/-- `r'` has the slots of `r` and behind them one slot for each element of the tree of `e`, with its
kind and the element that owns it; `e` itself has `owner`. -/
structure Gains (r : Registry) (e : Element) (owner : Option Id) (r' : Registry) : Prop where
  old : r.slots <+: r'.slots
  ids : r'.ids = r.ids ++ e.subtree.map Element.id
  top : r'.slot? e.id = some ⟨e.kind, owner⟩
  below : ∀ x ∈ e.subtree, ∀ c ∈ x.children, r'.slot? c.id = some ⟨c.kind, some x.id⟩
  kept : ∀ id, id ∉ e.subtree.map Element.id → r'.slot? id = r.slot? id
  reserved : r'.reserved = r.reserved

theorem gains_append (h : r.Admits e) (owner : Option Id) :
    r.Gains e owner { r with slots := r.slots ++ (e.placed owner).map Placed.slot } := by
  have hkeys : ((e.placed owner).map Placed.slot).map Prod.fst = e.subtree.map Element.id :=
    (map_fst_slot _).trans (e.map_id_placed_eq_subtree owner)
  have hnew {p : Placed} (hp : p ∈ e.placed owner) :
      slot? { r with slots := r.slots ++ (e.placed owner).map Placed.slot } p.id =
        some ⟨p.element.kind, p.owner⟩ := by
    have hfree : r.slots.lookup p.id = none :=
      (h.2 p.element (e.map_element_placed owner ▸ List.mem_map_of_mem hp)).1
    rw [slot?, List.lookup_append, hfree, Option.none_or]
    exact lookup_eq_some_of_nodup (hkeys ▸ h.1) (List.mem_map_of_mem hp)
  constructor
  · exact List.prefix_append _ _
  · rw [Registry.ids, List.map_append, hkeys]
    rfl
  · exact hnew (e.mem_placed_self owner)
  · intro x hx c hc
    rw [← e.map_element_placed owner] at hx
    obtain ⟨p, hp, rfl⟩ := List.mem_map.mp hx
    exact hnew (Element.child_mem_placed hp hc)
  · intro id hid
    have hnone : ((e.placed owner).map Placed.slot).lookup id = none := by
      rw [List.lookup_eq_none_iff]
      intro p hp
      rw [bne_iff_ne]
      rintro rfl
      exact hid (hkeys ▸ List.mem_map_of_mem hp)
    rw [slot?, List.lookup_append, hnone, Option.or_none]
    rfl
  · rfl

/-! ## And takes out again -/

/-- Slots that stand behind those of `r` come off one by one, each counted. -/
theorem release_appended {new : List (Id × Slot)} (hfree : ∀ p ∈ new, r.slot? p.1 = none) :
    release { r with slots := r.slots ++ new } (new.map Prod.fst) = (new.length, r) := by
  induction new with
  | nil =>
    rw [List.append_nil]
    rfl
  | cons p new ih =>
    obtain ⟨hp, hnew⟩ := List.forall_mem_cons.mp hfree
    have hbehind : ∀ q ∈ r.slots, ¬ decide (q.1 = p.1) = true := by
      intro q hq
      have hne : p.1 ≠ q.1 := bne_iff_ne.mp (List.lookup_eq_none_iff.mp hp q hq)
      simpa using hne.symm
    have hcontains : contains { r with slots := r.slots ++ p :: new } p.1 = true :=
      contains_iff_ids.mpr (by simp [Registry.ids])
    have herase : erase { r with slots := r.slots ++ p :: new } p.1 =
        { r with slots := r.slots ++ new } := by
      rw [erase, List.eraseP_append_right _ hbehind, List.eraseP_cons_of_pos (by simp)]
    rw [List.map_cons, release_of_contains hcontains, herase, ih hnew, List.length_cons]

/-- Taking an element out right after it was registered leads back. -/
theorem unregister_registered (h : r.Admits e) (owner : Option Id) :
    unregister { r with slots := r.slots ++ (e.placed owner).map Placed.slot } e =
      (e.subtree.length, r) := by
  have hids : e.subtree.map Element.id = ((e.placed owner).map Placed.slot).map Prod.fst :=
    (e.map_id_placed_eq_subtree owner).symm.trans (map_fst_slot _).symm
  have hlen : e.subtree.length = ((e.placed owner).map Placed.slot).length := by
    rw [← e.map_element_placed owner, List.length_map, List.length_map]
  rw [unregister_eq, hids, hlen]
  refine release_appended (List.forall_mem_map.mpr fun p hp => ?_)
  exact (h.2 p.element (e.map_element_placed owner ▸ List.mem_map_of_mem hp)).1

/-! ## All or nothing -/

/-- **A tree is registered as a whole or not at all.** If no identifier of the tree is in use and
none stands there twice, the registry gains exactly the slots of the tree, and taking the element out
again leads back and counts them. Otherwise the first clash in the order of the tree is named, and
a scope with this registry that was to register the tree is left as it is. -/
theorem register_or_refuse (r : Registry) (e : Element) (owner : Option Id) :
    (r.Admits e ∧ ∃ r', r.register e owner = .ok r' ∧ r.Gains e owner r' ∧
        r'.unregister e = (e.subtree.length, r)) ∨
      (¬ r.Admits e ∧ ∃ id, r.register e owner = .error (.duplicateId id) ∧
        r.FirstClash (e.subtree.map Element.id) id ∧
        ∀ s : Scope, Scope.registerTree e owner { s with registry := r } =
          .error (.duplicateId id) { s with registry := r }) := by
  cases hrun : r.register e owner with
  | ok r' =>
    obtain ⟨hadmits, rfl⟩ := register_eq_ok_iff.mp hrun
    exact .inl ⟨hadmits, _, rfl, gains_append hadmits owner, unregister_registered hadmits owner⟩
  | error refusal =>
    obtain ⟨id, rfl, hclash⟩ := firstClash_of_register hrun
    refine .inr ⟨fun hadmits => ?_, id, rfl, hclash, fun s => ?_⟩
    · rw [register_eq_ok_iff.mpr ⟨hadmits, rfl⟩] at hrun
      cases hrun
    · rw [Scope.registerTree, hrun]

end Registry

end BpmnModel
