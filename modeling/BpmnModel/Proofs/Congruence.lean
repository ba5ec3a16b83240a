import BpmnModel.Proofs.Dependence
import BpmnModel.Proofs.Namesakes
import BpmnModel.Proofs.Resolution

/-!
# Scopes that count as equal answer alike

Equality of scopes does not look at registries.  In scopes that edits lead to, the registry is
determined by the ownership tree, and equality leaves open no more than the order of that tree.

* `Scope.same_iff` — root elements are compared without regard to order.
* `Scope.Matches` — ownership trees that agree up to order have the same registry
  (`Matches.registry_same`) and answer alike for identifiers (`Matches.rel_get?`).
* `Scope.rearranged_placed` — the ownership trees of equal scopes agree up to order.
* `Scope.rel_lookup` — equal scopes find equal elements, in bound imports as well.
* `Scope.answersLike` — so all that a check asks of them has the same answer.
-/

namespace BpmnModel

/-! ## What is compared -/

theorem Container.same_iff {c d : Container} (hnd : (c.elements.map FlowElement.id).Nodup) :
    c.same d = true ↔
      Rearranged (fun e f => FlowElement.same e f = true) c.elements d.elements ∧
        c.laneSets = d.laneSets := by
  refine ⟨fun h => rearranged_elements h hnd, ?_⟩
  rintro ⟨helements, hls⟩
  have heach := FlowElement.eachIn_iff.mpr
    (helements.exists_namesake (fun _ _ => FlowElement.id_of_same) hnd)
  simp [same, helements.length_eq, heach, hls]

theorem Root.id_of_same {r q : Root} (h : r.same q = true) : r.id = q.id := by
  have hid := Element.id_of_same (e := .root r) (f := .root q) h
  rwa [Element.id_root, Element.id_root] at hid

theorem Root.executable_of_same {r q : Root} (h : r.same q = true) : r.executable = q.executable := by
  rcases Root.same_cases h with ⟨p, c, rfl, rfl, -⟩ | ⟨-, rfl⟩ <;> rfl

namespace Scope

variable {a b : Scope}

theorem sameImports_iff {is js : List Import} :
    sameImports is js = true ↔ List.Forall₂ (fun i j => sameImport i j = true) is js := by
  induction is generalizing js with
  | nil => cases js <;> simp [sameImports]
  | cons i is ih => cases js <;> simp [sameImports, ih]

/-- The scopes behind imports that count as equal count as equal themselves. -/
theorem forall₂_scopes {is js : List Import}
    (h : List.Forall₂ (fun i j => sameImport i j = true) is js) :
    List.Forall₂ (fun s t => s.same t = true) (is.filterMap Import.scope?)
      (js.filterMap Import.scope?) := by
  induction h with
  | nil => exact .nil
  | @cons i j is js hij _ ih =>
    cases i with
    | unbound d =>
      cases j with
      | unbound e => exact ih
      | bound e stamp t => cases hij
    | bound d stamp s =>
      cases j with
      | unbound e => cases hij
      | bound e stamp' t =>
        simp only [sameImport, Bool.and_eq_true] at hij
        exact .cons hij.2 ih

/-- **Equality of scopes**: headers, relationships, imports and extensions in order, root elements in
any order, and the registries are not compared. -/
theorem same_iff (hnd : (a.roots.map Root.id).Nodup) :
    a.same b = true ↔
      a.header = b.header ∧ Rearranged (fun r q => Root.same r q = true) a.roots b.roots ∧
        a.relationships = b.relationships ∧
        List.Forall₂ (fun i j => sameImport i j = true) a.imports b.imports ∧
        a.extensions = b.extensions := by
  have hroots : (a.roots.length = b.roots.length ∧
      ∀ r ∈ a.roots, (b.root? r.id).any r.same = true) ↔
      Rearranged (fun r q => Root.same r q = true) a.roots b.roots := by
    have hnamesakes : (∀ r ∈ a.roots, (b.root? r.id).any r.same = true) ↔
        ∀ r ∈ a.roots, ∃ q, b.roots.find? (·.id = r.id) = some q ∧ r.same q = true :=
      forall₂_congr fun r _ => by rw [root?, Option.any_eq_true]
    rw [hnamesakes]
    constructor
    · rintro ⟨hlength, h⟩
      exact .of_namesakes hnd hlength h
    · exact fun h => ⟨h.length_eq, h.exists_namesake (fun _ _ => Root.id_of_same) hnd⟩
  rw [← hroots, ← sameImports_iff]
  obtain ⟨header, roots, relationships, imports, extensions, registry⟩ := a
  simp only [same, Bool.and_eq_true, beq_iff_eq, List.all_eq_true, and_assoc]

/-! ## The trees and the registries -/

/-- The scopes own the same, up to order and to what `R` leaves open in elements of the same
identifier, kind and owner. -/
structure Matches (R : Element → Element → Prop) (a b : Scope) : Prop where
  id_eq : a.id = b.id
  placed : Rearranged (fun p q => p.slot = q.slot ∧ R p.element q.element) a.placed b.placed

namespace Matches

variable {R : Element → Element → Prop}

/-- The registry is determined by the ownership tree. -/
theorem registry_same (h : Matches R a b) (ha : a.Agrees) (hb : b.Agrees) :
    a.registry.Same b.registry := by
  refine ha.records.same hb.records (h.placed.perm_map fun _ _ _ _ hpq => hpq.1) ?_
  rw [ha.reserved, hb.reserved, h.id_eq]

theorem slot?_eq (h : Matches R a b) (ha : a.Agrees) (hb : b.Agrees) (id : Id) :
    a.registry.slot? id = b.registry.slot? id :=
  (h.registry_same ha hb).slot?_eq ha.records.nodup_keys id

/-- What is found under an identifier in one scope is related to what is found in the other. -/
theorem rel_get? (h : Matches R a b) (ha : a.Agrees) (hb : b.Agrees) (id : Id) :
    Option.Rel R (a.get? id) (b.get? id) := by
  rcases ha.slot?_eq_of_get? id with ⟨e, o, hget, -, hmem⟩ | ⟨hget, hslot⟩
  · obtain ⟨q, hq, hslot, hrel⟩ := h.placed.exists_of_mem hmem
    have hfound : b.get? id = some q.element := by
      refine (hb.get?_iff id q.element).mpr ⟨?_, q.owner, hq⟩
      exact (congrArg Prod.fst hslot).symm.trans ((ha.get?_iff id e).mp hget).1
    rw [hget, hfound]
    exact .some hrel
  · rw [h.slot?_eq ha hb] at hslot
    rcases hb.slot?_eq_of_get? id with ⟨e, o, -, hslot', -⟩ | ⟨hget', -⟩
    · cases hslot.symm.trans hslot'
    · rw [hget, hget']
      exact .none

end Matches

/-- **The ownership trees of scopes that count as equal agree up to order.** -/
theorem rearranged_placed (ha : a.Agrees) (h : a.same b = true) :
    Rearranged Placed.Same a.placed b.placed := by
  obtain ⟨-, hroots, hrelationships, -⟩ := (same_iff ha.nodup_roots).mp h
  rw [placed, placed, topLevel, topLevel, List.flatMap_append, List.flatMap_append,
    List.flatMap_map, List.flatMap_map, List.flatMap_map, List.flatMap_map, hrelationships]
  refine .append (hroots.flatMap fun r hr q _ hrq => ?_) (.refl fun p hp => ?_)
  · have hnd := ha.nodup_topLevel (mem_topLevel_root.mpr hr)
    exact Element.rearranged_placed (e := .root r) (f := .root q) hrq none hnd
  · obtain ⟨r, -, hp⟩ := List.mem_flatMap.mp hp
    rw [List.mem_singleton.mp hp]
    exact ⟨rfl, Element.same_self rfl⟩

theorem matches_of_same (ha : a.Agrees) (h : a.same b = true) :
    Matches (fun x y => Element.same x y = true) a b where
  id_eq := congrArg (·.identity.id) ((same_iff ha.nodup_roots).mp h).1
  placed := (rearranged_placed ha h).mono fun _ _ _ _ hpq => ⟨hpq.slot, hpq.2⟩

/-! ## Lookups -/

/-- Searches that answer alike at each step answer alike. -/
theorem rel_findSome? {α β : Type} {R : α → α → Prop} {S : β → β → Prop} {xs ys : List α}
    (h : List.Forall₂ R xs ys) {f : α → Option β}
    (hf : ∀ x ∈ xs, ∀ y ∈ ys, R x y → Option.Rel S (f x) (f y)) :
    Option.Rel S (xs.findSome? f) (ys.findSome? f) := by
  induction h with
  | nil => exact .none
  | @cons x y xs ys hxy hrest ih =>
    have ih := ih fun x hx y hy => hf x (List.mem_cons_of_mem _ hx) y (List.mem_cons_of_mem _ hy)
    have hhead := hf x List.mem_cons_self y List.mem_cons_self hxy
    rw [List.findSome?_cons, List.findSome?_cons]
    cases hx : f x <;> cases hy : f y <;> rw [hx, hy] at hhead
    · exact ih
    · cases hhead
    · cases hhead
    · exact hhead

/-- **Scopes that count as equal find equal elements**, whether they own them or import them. -/
theorem rel_lookup (ha : Reachable a) (hb : Reachable b) (h : a.same b = true) (id : Id) :
    Option.Rel (fun x y => Element.same x y = true) (a.lookup id) (b.lookup id) := by
  induction a using imports_induction generalizing b with
  | step a ih =>
    have himports := forall₂_scopes ((same_iff ha.agrees.nodup_roots).mp h).2.2.2.1
    have hbehind := rel_findSome? himports fun s hs t ht hst => by
      obtain ⟨i, hi, hscope⟩ := List.mem_filterMap.mp hs
      obtain ⟨j, hj, hscope'⟩ := List.mem_filterMap.mp ht
      exact ih s hs (ha.of_import hi hscope) (hb.of_import hj hscope') hst
    rw [lookup_step, lookup_step b]
    have hown := (matches_of_same ha.agrees h).rel_get? ha.agrees hb.agrees id
    cases hx : a.get? id <;> cases hy : b.get? id <;> rw [hx, hy] at hown
    · exact hbehind
    · cases hown
    · cases hown
    · exact hown

/-! ## What checks ask -/

/-- What agrees on related answers agrees on answers. -/
theorem bind_eq_of_rel {α β : Type} {R : α → α → Prop} {f : α → Option β} {x y : Option α}
    (h : Option.Rel R x y) (hf : ∀ x y, R x y → f x = f y) : x.bind f = y.bind f := by
  cases h with
  | none => rfl
  | some hxy => exact hf _ _ hxy

/-- Equal elements are the same sequence flow, if they are one. -/
theorem sequenceFlow?_of_same {x y : Element} (h : x.same y = true) :
    x.flowElement?.bind FlowElement.sequenceFlow? = y.flowElement?.bind FlowElement.sequenceFlow? := by
  rcases Element.same_cases h with
    ⟨p, c, rfl, rfl, -⟩ | ⟨a, t, es, fs, ls, as, rfl, rfl, -⟩ | ⟨-, rfl⟩ <;> rfl

/-- **Scopes that count as equal answer alike to whatever a check asks of them.** -/
theorem answersLike (ha : Reachable a) (hb : Reachable b) (h : a.same b = true) :
    a.AnswersLike b where
  kind id := by
    rw [Option.map_eq_bind, Option.map_eq_bind]
    exact bind_eq_of_rel (rel_lookup ha hb h id) fun _ _ hxy =>
      congrArg some (Element.kind_of_same hxy)
  sequenceFlow id := by
    rw [sequenceFlow?, sequenceFlow?, Option.bind_assoc, Option.bind_assoc]
    exact bind_eq_of_rel ((matches_of_same ha.agrees h).rel_get? ha.agrees hb.agrees id)
      fun _ _ => sequenceFlow?_of_same
  slot := (matches_of_same ha.agrees h).slot?_eq ha.agrees hb.agrees

end Scope

end BpmnModel
