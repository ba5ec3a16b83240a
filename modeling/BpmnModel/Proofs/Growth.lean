import BpmnModel.Proofs.Atomicity
import BpmnModel.Proofs.Fields

/-!
# Adding something at once, or part by part

Something that owns parts can be built from them and then added to a scope, or be added without them
and get them one by one.  Both ways register the same, in another order, so that both are refused or
both lead to the same scope.

* `Scope.performAll` — edits in order, up to the first that is refused.
* `Scope.SameEffect` — two edits are both refused, or lead to scopes that are the same.
* `Scope.Registers` — an edit is refused only if what it adds cannot be registered.
* `Growth` — what is added, its parts, and how parts are stored; `Growth.Sound` says that edits do
  store them so.
* `Growth.Sound.sameEffect` — then both ways have the same effect.
-/

namespace BpmnModel

/-- What an edit adds, with all that it owns. -/
def Change.tree (c : Change) : List Placed :=
  match c.addition? with
  | some (owner, e) => e.placed owner
  | none => []

namespace Scope

variable {s t : Scope}

/-! ## Edits and their effects -/

/-- Makes edits in order, up to the first that is refused. -/
def performAll : List Change → Edit Unit
  | [] => return ()
  | c :: cs => do
    let _ ← c.perform
    performAll cs

/-- Makes an edit if what it adds could be built. -/
def addBuilt : Except ModelError Change → Edit Outcome
  | .error refusal => throw refusal
  | .ok c => c.perform

theorem performAll_cons (c : Change) (cs : List Change) (s : Scope) :
    performAll (c :: cs) s =
      match c.perform s with
      | .ok _ t => performAll cs t
      | .error refusal t => .error refusal t := by
  show EStateM.bind c.perform (fun _ => performAll cs) s = _
  unfold EStateM.bind
  cases c.perform s <;> rfl

theorem performAll_refused {c : Change} {refusal : ModelError}
    (h : c.perform s = .error refusal t) (cs : List Change) :
    ∃ refusal t, performAll (c :: cs) s = .error refusal t :=
  ⟨refusal, t, by rw [performAll_cons, h]⟩

/-- The scopes are the same; only the order in which their registries were filled may differ. -/
structure Identical (s t : Scope) : Prop where
  parts : t = { s with registry := t.registry }
  registry : s.registry.Same t.registry

theorem Identical.symm (h : s.Identical t) : t.Identical s := by
  obtain ⟨hparts, hregistry⟩ := h
  refine ⟨?_, hregistry.symm⟩
  rw [hparts]
  cases s
  rfl

/-- Both edits are refused, or both succeed and lead to the same scope. -/
def SameEffect {α β : Type} (s : Scope) (edit : Edit α) (edit' : Edit β) : Prop :=
  match edit s, edit' s with
  | .ok _ t, .ok _ t' => t.Identical t'
  | .error .., .error .. => True
  | _, _ => False

theorem SameEffect.of_refused {α β : Type} {edit : Edit α} {edit' : Edit β}
    (h : ∃ refusal t, edit s = .error refusal t) (h' : ∃ refusal t, edit' s = .error refusal t) :
    s.SameEffect edit edit' := by
  obtain ⟨refusal, t, h⟩ := h
  obtain ⟨refusal', t', h'⟩ := h'
  rw [SameEffect, h, h']
  trivial

/-- If the second edit succeeds, so does the first, and the scopes are the same. -/
theorem SameEffect.exists_of_ok {α β : Type} {edit : Edit α} {edit' : Edit β} {b : β}
    (h : s.SameEffect edit edit') (hrun : edit' s = .ok b t) :
    ∃ a t', edit s = .ok a t' ∧ t'.Identical t := by
  unfold SameEffect at h
  rw [hrun] at h
  cases hedit : edit s with
  | ok a t =>
    rw [hedit] at h
    exact ⟨a, t, rfl, h⟩
  | error refusal t =>
    rw [hedit] at h
    exact h.elim

/-- The edit is refused if what it adds cannot be registered; otherwise it leads to a scope with the
registry that is due and with `P`. -/
def Registers (s : Scope) (c : Change) (P : Scope → Prop) : Prop :=
  (∃ clash refusal t, s.registry.registerAll c.tree = .error clash ∧
      c.perform s = .error refusal t) ∨
    ∃ outcome t, s.registry.registerAll c.tree = .ok t.registry ∧ c.perform s = .ok outcome t ∧ P t

/-- Whatever the registry says decides about an edit that registers first. -/
theorem Registers.of_run {c : Change} {P : Scope → Prop} (add : Edit Id) (owner : Option Id)
    (e : Element) (next : Scope) (hc : c.perform = Outcome.added <$> add)
    (htree : c.tree = e.placed owner)
    (hrun : add s = match s.registry.register e owner with
      | .error clash => .error clash s
      | .ok registry => .ok e.id { next with registry })
    (hnext : ∀ registry, s.registry.register e owner = .ok registry → P { next with registry }) :
    s.Registers c P := by
  have hperform : c.perform s = EStateM.map Outcome.added add s := congrFun hc s
  rw [EStateM.map, hrun] at hperform
  rw [Registers, htree]
  cases hr : s.registry.register e owner with
  | error clash =>
    rw [hr] at hperform
    exact .inl ⟨clash, clash, s, hr, hperform⟩
  | ok registry =>
    rw [hr] at hperform
    exact .inr ⟨_, { next with registry }, hr, hperform, hnext registry hr⟩

theorem registers_addRoot (s : Scope) (r : Root) :
    s.Registers (.addRoot r) fun t =>
      t = { s with roots := s.roots ++ [r], registry := t.registry } := by
  have hrun := addRoot_run s r
  rw [← Element.id_root] at hrun
  exact .of_run (addRoot r) none (.root r) { s with roots := s.roots ++ [r] } rfl rfl hrun
    fun _ _ => rfl

theorem addFlowElement_refused {owner : Id} {refusal : ModelError}
    (h : containerPath owner s = .error refusal s) (e : FlowElement) :
    (Change.addFlowElement owner e).perform s = .error refusal s := by
  have hrun := addFlowElement_run s owner e
  rw [h] at hrun
  show EStateM.map Outcome.added (addFlowElement owner e) s = _
  rw [EStateM.map, hrun]

end Scope

/-! ## Growing -/

/-- Something with contents in `σ` that is added to a scope and has parts in `ι`. -/
structure Growth (σ ι : Type) where
  /-- Stores a part among contents. -/
  store : σ → ι → Except ModelError σ
  /-- Adds the thing with contents. -/
  whole : σ → Change
  /-- Adds a part to the thing that is there. -/
  part : ι → Change
  /-- The scope that has the thing with contents, apart from its registry. -/
  holding : σ → Scope

namespace Growth

variable {σ ι : Type}

/-- The scope has the thing with these contents. -/
def Holds (g : Growth σ ι) (k : σ) (t : Scope) : Prop :=
  t = { g.holding k with registry := t.registry }

/-- Adds the thing with contents to which the parts were stored, if all could be. -/
def atOnce (g : Growth σ ι) (k : σ) (parts : List ι) : Edit Outcome :=
  Scope.addBuilt do
    let k ← parts.foldlM g.store k
    return g.whole k

/-- Adds the thing with contents, then the parts one by one. -/
def stepwise (g : Growth σ ι) (k : σ) (parts : List ι) : Edit Unit :=
  Scope.performAll (g.whole k :: parts.map g.part)

/-- The edits add to `s` what the growth says, and are refused only if something is registered
already. -/
structure Sound (g : Growth σ ι) (s : Scope) : Prop where
  /-- The thing is added with any contents. -/
  whole : ∀ k, s.Registers (g.whole k) (g.Holds k)
  /-- A part is added by storing it. -/
  part : ∀ k t, t.Agrees → g.Holds k t → ∀ i,
    t.Registers (g.part i) fun u => ∃ k', g.store k i = .ok k' ∧ g.Holds k' u
  /-- With one part more the thing registers what both register apart. -/
  slots : ∀ k i k', g.store k i = .ok k' →
    ((g.whole k').tree.map Placed.slot).Perm (((g.whole k).tree ++ (g.part i).tree).map Placed.slot)

/-- All that is added step by step. -/
def allTrees (g : Growth σ ι) (k : σ) (parts : List ι) : List Placed :=
  (g.whole k).tree ++ (parts.map g.part).flatMap Change.tree

variable {g : Growth σ ι} {s : Scope} {k : σ} {parts : List ι}

theorem atOnce_of_ok {k' : σ} (h : parts.foldlM g.store k = .ok k') :
    g.atOnce k parts = (g.whole k').perform := by
  rw [atOnce, h]
  rfl

theorem atOnce_of_error {refusal : ModelError} (h : parts.foldlM g.store k = .error refusal) :
    g.atOnce k parts = throw refusal := by
  rw [atOnce, h]
  rfl

/-- At once the same is registered as step by step, in another order. -/
theorem Sound.slots_foldlM (h : g.Sound s) {k' : σ} (hk : parts.foldlM g.store k = .ok k') :
    ((g.whole k').tree.map Placed.slot).Perm ((g.allTrees k parts).map Placed.slot) := by
  unfold allTrees
  induction parts generalizing k with
  | nil =>
    cases hk
    simp
  | cons i parts ih =>
    rw [List.foldlM_cons] at hk
    obtain ⟨k₁, hstore, hk⟩ := bind_eq_ok.mp hk
    rw [List.map_cons, List.flatMap_cons, ← List.append_assoc, List.map_append]
    exact (ih hk).trans (by simpa using (h.slots k i k₁ hstore).append_right _)

/-- **Parts are added one by one exactly if they can be registered**, and then they were stored. -/
theorem Sound.performAll_parts (h : g.Sound s) {t : Scope} (ht : t.Agrees) (hk : g.Holds k t) :
    (∃ clash refusal u,
        t.registry.registerAll ((parts.map g.part).flatMap Change.tree) = .error clash ∧
        Scope.performAll (parts.map g.part) t = .error refusal u) ∨
      ∃ k' u, t.registry.registerAll ((parts.map g.part).flatMap Change.tree) = .ok u.registry ∧
        parts.foldlM g.store k = .ok k' ∧ Scope.performAll (parts.map g.part) t = .ok () u ∧
        g.Holds k' u := by
  induction parts generalizing k t with
  | nil => exact .inr ⟨k, t, t.registry.registerAll_nil, rfl, rfl, hk⟩
  | cons i parts ih =>
    rw [List.map_cons, List.flatMap_cons, Scope.performAll_cons, List.foldlM_cons]
    rcases h.part k t ht hk i with
      ⟨clash, refusal, u, hclash, hrun⟩ | ⟨outcome, u, hregister, hrun, k', hstore, hk'⟩
    · rw [hrun]
      obtain ⟨clash', hall⟩ := Registry.registerAll_append_error (.inl ⟨clash, hclash⟩)
      exact .inl ⟨clash', refusal, u, hall, rfl⟩
    · have hu : u.Agrees := by
        have hafter := Change.agrees_after ht (g.part i)
        rwa [Change.after, hrun] at hafter
      rw [hrun, hstore, ok_bind]
      rcases ih hu hk' with ⟨clash, refusal, v, hclash, hrun⟩ | ⟨k'', v, hrest, hfold, hrun, hk''⟩
      · obtain ⟨clash', hall⟩ :=
          Registry.registerAll_append_error (.inr ⟨_, hregister, clash, hclash⟩)
        exact .inl ⟨clash', refusal, v, hall, hrun⟩
      · have hall := Registry.registerAll_append.mpr ⟨_, hregister, hrest⟩
        exact .inr ⟨k'', v, hall, hfold, hrun, hk''⟩

/-- **Step by step all is added exactly if all of it can be registered.** -/
theorem Sound.stepwise_cases (h : g.Sound s) (hs : s.Agrees) (k : σ) (parts : List ι) :
    (∃ clash refusal u, s.registry.registerAll (g.allTrees k parts) = .error clash ∧
        g.stepwise k parts s = .error refusal u) ∨
      ∃ k' u, s.registry.registerAll (g.allTrees k parts) = .ok u.registry ∧
        parts.foldlM g.store k = .ok k' ∧ g.stepwise k parts s = .ok () u ∧ g.Holds k' u := by
  rw [stepwise, Scope.performAll_cons]
  rcases h.whole k with ⟨clash, refusal, t, hclash, hrun⟩ | ⟨outcome, t, hregister, hrun, hk⟩
  · obtain ⟨clash', hall⟩ := Registry.registerAll_append_error (.inl ⟨clash, hclash⟩)
    exact .inl ⟨clash', refusal, t, hall, by rw [hrun]⟩
  · have ht : t.Agrees := by
      have hafter := Change.agrees_after hs (g.whole k)
      rwa [Change.after, hrun] at hafter
    rw [hrun]
    rcases h.performAll_parts ht hk with
      ⟨clash, refusal, u, hclash, hrun⟩ | ⟨k', u, hparts, hfold, hrun, hk'⟩
    · obtain ⟨clash', hall⟩ :=
        Registry.registerAll_append_error (.inr ⟨_, hregister, clash, hclash⟩)
      exact .inl ⟨clash', refusal, u, hall, hrun⟩
    · exact .inr ⟨k', u, Registry.registerAll_append.mpr ⟨_, hregister, hparts⟩, hfold, hrun, hk'⟩

/-- **Adding the thing with its parts and adding the parts one by one have the same effect.** -/
theorem Sound.sameEffect (h : g.Sound s) (hs : s.Agrees) (k : σ) (parts : List ι) :
    s.SameEffect (g.atOnce k parts) (g.stepwise k parts) := by
  unfold Scope.SameEffect
  rcases h.stepwise_cases hs k parts with
    ⟨clash, refusal, u, hclash, hrun⟩ | ⟨k', u, hregister, hfold, hrun, hu⟩
  · rw [hrun]
    cases hfold : parts.foldlM g.store k with
    | error refusal =>
      rw [atOnce_of_error hfold]
      trivial
    | ok k' =>
      rw [atOnce_of_ok hfold]
      rcases h.whole k' with ⟨-, refusal, t, -, hwhole⟩ | ⟨outcome, t, hregister, hwhole, -⟩
      · simp only [hwhole]
      · -- together no more is registered than one by one
        obtain ⟨registry, hall, -⟩ := Registry.registerAll_perm (h.slots_foldlM hfold) hregister
        cases hclash.symm.trans hall
  · rw [hrun, atOnce_of_ok hfold]
    obtain ⟨registry, hall, hsame⟩ :=
      Registry.registerAll_perm (h.slots_foldlM hfold).symm hregister
    rcases h.whole k' with ⟨clash, -, -, hclash, -⟩ | ⟨outcome, t, hwhole, hrun', ht⟩
    · cases hclash.symm.trans hall
    · cases hwhole.symm.trans hall
      simp only [hrun']
      exact ⟨by rw [hu, ht], hsame.symm⟩

end Growth

end BpmnModel
