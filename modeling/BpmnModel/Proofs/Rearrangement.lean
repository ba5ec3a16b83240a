import BpmnModel.Proofs.Sameness
import Mathlib.Data.Multiset.Bind
import Mathlib.Data.List.Perm.Subperm

/-!
# Lists compared without regard to order

* `Rearranged R xs ys` — each item of one list has a partner in the other that is related to it by
  `R`.
* `Rearranged.map`, `Rearranged.flatMap` — what is made of related items is related again.
* `Rearranged.of_forall₂_filter` — two lists are related so if they are sort by sort.
* `Rearranged.of_namesakes` — two lists of the same length are related so if each item of the first
  is related to its namesake in the second.
-/

namespace BpmnModel

variable {α β γ δ : Type}

/-- The lists agree up to order, where items that are related by `R` count as the same. -/
def Rearranged (R : α → β → Prop) (xs : List α) (ys : List β) : Prop :=
  Multiset.Rel R (xs : Multiset α) (ys : Multiset β)

namespace Rearranged

variable {R : α → β → Prop} {S : γ → δ → Prop} {xs xs' : List α} {ys ys' : List β}

theorem nil : Rearranged R [] [] := .zero

theorem cons {x : α} {y : β} (hxy : R x y) (h : Rearranged R xs ys) :
    Rearranged R (x :: xs) (y :: ys) :=
  Multiset.Rel.cons hxy h

theorem append (h : Rearranged R xs ys) (h' : Rearranged R xs' ys') :
    Rearranged R (xs ++ xs') (ys ++ ys') := by
  unfold Rearranged
  rw [← Multiset.coe_add, ← Multiset.coe_add]
  exact Multiset.Rel.add h h'

theorem refl {R : α → α → Prop} (h : ∀ x ∈ xs, R x x) : Rearranged R xs xs :=
  Multiset.rel_refl_of_refl_on h

theorem mono {R' : α → β → Prop} (h : Rearranged R xs ys)
    (himp : ∀ x ∈ xs, ∀ y ∈ ys, R x y → R' x y) : Rearranged R' xs ys :=
  Multiset.Rel.mono h himp

theorem of_forall₂ (h : List.Forall₂ R xs ys) : Rearranged R xs ys := by
  induction h with
  | nil => exact .nil
  | cons hxy _ ih => exact .cons hxy ih

theorem map (h : Rearranged R xs ys) {f : α → γ} {g : β → δ}
    (hfg : ∀ x ∈ xs, ∀ y ∈ ys, R x y → S (f x) (g y)) : Rearranged S (xs.map f) (ys.map g) := by
  unfold Rearranged
  rw [← Multiset.map_coe, ← Multiset.map_coe]
  exact Multiset.rel_map.mpr (Multiset.Rel.mono h hfg)

theorem flatMap (h : Rearranged R xs ys) {f : α → List γ} {g : β → List δ}
    (hfg : ∀ x ∈ xs, ∀ y ∈ ys, R x y → Rearranged S (f x) (g y)) :
    Rearranged S (xs.flatMap f) (ys.flatMap g) := by
  unfold Rearranged
  rw [← Multiset.coe_bind, ← Multiset.coe_bind]
  exact Multiset.rel_bind (r := fun x y => Rearranged S (f x) (g y)) (fun _ _ hxy => hxy)
    (Multiset.Rel.mono h hfg)

/-- What is equal for related items is a permutation. -/
theorem perm_map (h : Rearranged R xs ys) {f : α → γ} {g : β → γ}
    (hfg : ∀ x ∈ xs, ∀ y ∈ ys, R x y → f x = g y) : (xs.map f).Perm (ys.map g) :=
  Multiset.coe_eq_coe.mp (Multiset.rel_eq.mp (h.map hfg))

theorem perm_flatMap (h : Rearranged R xs ys) {f : α → List γ} {g : β → List γ}
    (hfg : ∀ x ∈ xs, ∀ y ∈ ys, R x y → f x = g y) : (xs.flatMap f).Perm (ys.flatMap g) := by
  refine Multiset.coe_eq_coe.mp (Multiset.rel_eq.mp (h.flatMap fun x hx y hy hxy => ?_))
  rw [hfg x hx y hy hxy]
  exact .refl fun _ _ => rfl

theorem length_eq (h : Rearranged R xs ys) : xs.length = ys.length :=
  Multiset.card_eq_card_of_rel h

theorem exists_of_mem (h : Rearranged R xs ys) {x : α} (hx : x ∈ xs) : ∃ y ∈ ys, R x y :=
  Multiset.exists_mem_of_rel_of_mem h hx

theorem trans_perm (h : Rearranged R xs ys) (hp : ys.Perm ys') : Rearranged R xs ys' := by
  unfold Rearranged
  rwa [← Multiset.coe_eq_coe.mpr hp]

theorem perm_trans (hp : xs.Perm xs') (h : Rearranged R xs' ys) : Rearranged R xs ys := by
  unfold Rearranged
  rwa [Multiset.coe_eq_coe.mpr hp]

/-- Lists whose items of each sort are related one by one agree up to order. -/
theorem of_forall₂_filter {κ : Type} [DecidableEq κ] (sort : α → κ) (sort' : β → κ)
    (h : ∀ k, List.Forall₂ R (xs.filter (sort · = k)) (ys.filter (sort' · = k))) :
    Rearranged R xs ys := by
  induction xs generalizing ys with
  | nil =>
    cases ys with
    | nil => exact .nil
    | cons y ys => simpa using h (sort' y)
  | cons x xs ih =>
    -- the partner of the first item is the first of its sort
    have hx := h (sort x)
    rw [List.filter_cons_of_pos (by simp)] at hx
    obtain ⟨y, rest, hxy, hrest, heq⟩ := List.forall₂_cons_left_iff.mp hx
    obtain ⟨before, after, rfl, hbefore, hy, hafter⟩ := List.filter_eq_cons_iff.mp heq
    refine trans_perm (.cons hxy (ih fun k => ?_)) List.perm_middle.symm
    by_cases hk : sort x = k
    · subst hk
      rwa [List.filter_append, List.filter_eq_nil_iff.mpr hbefore, List.nil_append, hafter]
    · have hy : sort' y ≠ k := fun hyk => hk ((of_decide_eq_true hy).symm.trans hyk)
      simpa [List.filter_append, hk, hy] using h k

/-- **Lists of named items agree up to order if they are equally long and each item of the first is
related to its namesake in the second**, provided that the names of the first are distinct. -/
theorem of_namesakes {R : α → α → Prop} {ys : List α} {name : α → Id}
    (hnd : (xs.map name).Nodup) (hlength : xs.length = ys.length)
    (h : ∀ x ∈ xs, ∃ y, ys.find? (name · = name x) = some y ∧ R x y) : Rearranged R xs ys := by
  -- the namesakes, in the order of the first list, are distinct as their names are
  let namesake (x : α) : α := (ys.find? (name · = name x)).getD x
  have hnamesake : ∀ x ∈ xs, namesake x ∈ ys ∧ name (namesake x) = name x ∧ R x (namesake x) := by
    intro x hx
    obtain ⟨y, hy, hxy⟩ := h x hx
    have hname := of_decide_eq_true (List.find?_some (p := fun z => name z = name x) hy)
    simp only [namesake, hy, Option.getD_some]
    exact ⟨List.mem_of_find?_eq_some hy, hname, hxy⟩
  have hnames : (xs.map namesake).map name = xs.map name := by
    rw [List.map_map]
    exact List.map_congr_left fun x hx => (hnamesake x hx).2.1
  have hnd' : (xs.map namesake).Nodup := .of_map name (by rwa [hnames])
  have hsubset : xs.map namesake ⊆ ys := by
    intro y hy
    obtain ⟨x, hx, rfl⟩ := List.mem_map.mp hy
    exact (hnamesake x hx).1
  have hperm : (xs.map namesake).Perm ys :=
    (hnd'.subperm hsubset).perm_of_length_le (by rw [List.length_map, hlength])
  refine trans_perm ?_ hperm
  exact of_forall₂ (List.forall₂_map_right_iff.mpr (List.forall₂_same.mpr fun x hx =>
    (hnamesake x hx).2.2))

/-- In lists that agree up to order each item has its namesake. -/
theorem exists_namesake {R : α → α → Prop} {ys : List α} {name : α → Id} (h : Rearranged R xs ys)
    (hname : ∀ x y, R x y → name x = name y) (hnd : (xs.map name).Nodup) :
    ∀ x ∈ xs, ∃ y, ys.find? (name · = name x) = some y ∧ R x y := by
  intro x hx
  obtain ⟨y, hy, hxy⟩ := h.exists_of_mem hx
  have hnd' : (ys.map name).Nodup :=
    (h.perm_map (f := name) (g := name) fun x _ y _ => hname x y).nodup_iff.mp hnd
  refine ⟨y, ?_, hxy⟩
  rw [hname x y hxy]
  exact find?_eq_some_of_nodup hnd' hy

end Rearranged

end BpmnModel
