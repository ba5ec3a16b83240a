import BpmnModel.Proofs.Findings
import BpmnModel.Proofs.Mirroring
import Mathlib.Data.List.Perm.Basic

/-!
# What a walk covers

A walk makes two rounds at once: it goes through the elements of the ownership tree, and at the owner
of a container it shows the flow elements that stand there.

* `Visit.hook`, `Visit.subject` — what is called at a step of the walk, and for which element.
* `Element.visits_eq` — what is called at an element, then the walks of its children.
* `Scope.map_subject_visits`, `Scope.perm_map_subject_visits` — each hook is called for the elements
  of the tree that it concerns.
* `Scope.Covered`, `Reachable.covered` — so nothing is left out and nothing is met twice.
-/

namespace BpmnModel

/-! ## Hooks -/

/-- What a walk calls when it meets something. -/
inductive Hook where
  | process
  | collaboration
  | link
  | references
  | container
  | flowElement
deriving DecidableEq

namespace Hook

/-- The hook is meant for elements of this kind. -/
def concerns : Hook → Kind → Bool
  | process, k => k = .process
  | collaboration, k => k = .collaboration || k = .globalConversation
  | link, k => k = .conversationLink
  | references, _ => true
  | container, k => k = .process || k = .subProcess
  | flowElement, k => k.has .flowElement

theorem concerns_flowElement (e : Element) :
    Hook.flowElement.concerns e.kind = e.flowElement?.isSome :=
  e.kind_has .flowElement

end Hook

namespace Visit

/-- The hook that is called. -/
def hook : Visit → Hook
  | process _ => .process
  | collaboration _ => .collaboration
  | link _ => .link
  | references _ => .references
  | container .. => .container
  | flowElement .. => .flowElement

/-- The element that the hook is called for; for a container it is the owner. -/
def subject : Visit → Element
  | process p => .root (.process p)
  | collaboration c => .root (.collaboration c)
  | link l => .conversationLink l
  | references e => e
  | container owner _ => owner
  | flowElement e _ => .flowElement e

end Visit

/-! ## One element -/

namespace Container

variable (c : Container)

theorem filter_visits (hook : Hook) :
    c.visits.filter (·.hook = hook) = if hook = .flowElement then c.visits else [] := by
  split
  · rename_i h
    exact List.filter_eq_self.mpr (List.forall_mem_map.mpr fun _ _ => by simp [Visit.hook, h])
  · rename_i h
    refine List.filter_eq_nil_iff.mpr (List.forall_mem_map.mpr fun _ _ => ?_)
    exact fun hhook => h (of_decide_eq_true hhook).symm

theorem map_subject_visits : c.visits.map Visit.subject = c.elements.map .flowElement := by
  rw [visits, List.map_map]
  rfl

/-- The flow elements among what the owner of a container owns. -/
theorem filter_owned (as : List Artifact) :
    (c.owned ++ as.map Element.artifact).filter (Hook.flowElement.concerns ·.kind) =
      c.elements.map .flowElement := by
  have helements : ∀ e ∈ c.elements.map Element.flowElement,
      Hook.flowElement.concerns e.kind = true :=
    List.forall_mem_map.mpr fun e _ => Hook.concerns_flowElement (.flowElement e)
  have hothers {α : Type} {mk : α → Element} (hmk : ∀ x, (mk x).flowElement? = none) (xs : List α) :
      (xs.map mk).filter (Hook.flowElement.concerns ·.kind) = [] := by
    refine List.filter_eq_nil_iff.mpr (List.forall_mem_map.mpr fun x _ => ?_)
    rw [Hook.concerns_flowElement, hmk]
    exact Bool.false_ne_true
  rw [owned, List.filter_append, List.filter_append, List.filter_eq_self.mpr helements,
    hothers fun _ => rfl, hothers fun _ => rfl, List.append_nil, List.append_nil]

end Container

namespace Element

variable (e : Element)

/-- Apart from showing flow elements, a hook is called at the elements that it concerns, for them. -/
theorem filter_encounters {hook : Hook} (h : hook ≠ .flowElement) :
    (e.encounters.filter (·.hook = hook)).map Visit.subject =
      if hook.concerns e.kind then [e] else [] := by
  have contents (c : Container) : c.visits.filter (·.hook = hook) = [] :=
    (c.filter_visits hook).trans (if_neg h)
  cases e with
  | root r =>
    cases r with
    | process p =>
      rw [encounters, List.filter_cons, List.filter_cons, List.filter_cons, contents]
      cases hook <;> rfl
    | collaboration c =>
      rw [kind, Collaboration.kind]
      split <;> cases hook <;> rfl
    | _ => cases hook <;> rfl
  | conversationNode n => cases n <;> cases hook <;> rfl
  | flowElement f =>
    cases hook with
    | flowElement => exact absurd rfl h
    | _ =>
      cases f with
      | subProcess a t es ls as =>
        rw [encounters, List.filter_cons, List.filter_cons, contents]
        rfl
      | task a w => cases w <;> rfl
      | event e =>
        rw [kind, FlowElement.kind]
        cases e.position <;> rfl
      | _ => rfl
  | artifact a => cases a <;> cases hook <;> rfl
  | _ => cases hook <;> rfl

theorem subject_eq {e : Element} {v : Visit} (hv : v ∈ e.encounters) (hhook : v.hook ≠ .flowElement) :
    v.subject = e := by
  have hmem : v.subject ∈ (e.encounters.filter (·.hook = v.hook)).map Visit.subject :=
    List.mem_map_of_mem (List.mem_filter.mpr ⟨hv, decide_eq_true rfl⟩)
  rw [filter_encounters e hhook] at hmem
  split at hmem
  · exact List.mem_singleton.mp hmem
  · cases hmem

theorem hook_of_mem_own {e : Element} {v : Visit} (hv : v ∈ e.own) :
    v.hook ≠ .container ∧ v.hook ≠ .flowElement := by
  revert v
  cases e with
  | root r => cases r <;> simp [own, encounters, Visit.hook]
  | flowElement f => simp [own, Visit.hook]
  | _ => simp [own, encounters, Visit.hook]

/-- Only the owner of a container meets it. -/
theorem container?_eq_of_container {e x : Element} {c : Container}
    (h : .container x c ∈ e.encounters) : e.container? = some c := by
  rw [encounters_eq] at h
  rcases List.mem_append.mp h with h | h
  · exact absurd rfl (hook_of_mem_own h).1
  · cases hc : e.container? with
    | none => simp [hc] at h
    | some k =>
      obtain ⟨-, rfl⟩ : x = e ∧ c = k := by simpa [hc, Container.visits] using h
      rfl

/-- Only the owner of a container shows what stands there. -/
theorem container?_eq_of_flowElement {e : Element} {f : FlowElement} {c : Container}
    (h : .flowElement f c ∈ e.encounters) : e.container? = some c ∧ f ∈ c.elements := by
  rw [encounters_eq] at h
  rcases List.mem_append.mp h with h | h
  · exact absurd rfl (hook_of_mem_own h).2
  · cases hc : e.container? with
    | none => simp [hc] at h
    | some k =>
      obtain ⟨hf, rfl⟩ : f ∈ k.elements ∧ k = c := by simpa [hc, Container.visits] using h
      exact ⟨rfl, hf⟩

theorem Flowless.not_concerned {e : Element} (h : e.Flowless) :
    Hook.flowElement.concerns e.kind = false := by
  rw [Hook.concerns_flowElement]
  cases e with
  | flowElement f => exact h.elim
  | _ => rfl

/-- The flow elements shown at an element are those among its children. -/
theorem filter_encounters_flowElement :
    (e.encounters.filter (·.hook = .flowElement)).map Visit.subject =
      e.children.filter (Hook.flowElement.concerns ·.kind) := by
  have contents (c : Container) :
      (c.visits.filter (·.hook = .flowElement)).map Visit.subject = c.elements.map .flowElement := by
    rw [c.filter_visits, if_pos rfl, c.map_subject_visits]
  have flowless (e : Element) (h : e.Flowless) :
      e.children.filter (Hook.flowElement.concerns ·.kind) = [] :=
    List.filter_eq_nil_iff.mpr fun c hc => Bool.eq_false_iff.mp (h.children c hc).not_concerned
  cases e with
  | root r =>
    cases r with
    | process p => exact (contents p.container).trans (p.container.filter_owned p.artifacts).symm
    | _ => exact (flowless _ (by trivial)).symm
  | flowElement f =>
    cases f with
    | subProcess a t es ls as =>
      exact (contents ⟨es, ls⟩).trans (Container.filter_owned ⟨es, ls⟩ as).symm
    | _ => rfl
  | _ => exact (flowless _ (by trivial)).symm

/-! ## The walk below an element -/

/-- What a walk meets at the element and below. -/
def visits : List Visit := e.subtree.flatMap encounters

/-- **The recursion of a walk**: what is to be met at an element, then the walks of its children in
turn. -/
theorem visits_eq : e.visits = e.encounters ++ e.children.flatMap visits := by
  rw [visits, subtree_eq, List.flatMap_cons, List.flatMap_assoc]
  rfl

/-- The flow elements shown at an element and below are those of its subtree, without itself. -/
theorem perm_visits_flowElement :
    ((e.visits.filter (·.hook = .flowElement)).map Visit.subject).Perm
      ((e.children.flatMap subtree).filter (Hook.flowElement.concerns ·.kind)) := by
  induction e using children_induction with
  | step e ih =>
    have hbelow : ((e.children.flatMap visits).filter (·.hook = .flowElement)).map Visit.subject =
        e.children.flatMap fun c => (c.visits.filter (·.hook = .flowElement)).map Visit.subject := by
      rw [List.filter_flatMap, List.map_flatMap]
    have hsubtrees : (e.children.flatMap subtree).filter (Hook.flowElement.concerns ·.kind) =
        e.children.flatMap fun c => [c].filter (Hook.flowElement.concerns ·.kind) ++
          (c.children.flatMap subtree).filter (Hook.flowElement.concerns ·.kind) := by
      rw [List.filter_flatMap]
      refine List.flatMap_congr fun c _ => ?_
      rw [subtree_eq, ← List.singleton_append, List.filter_append]
    have hown : e.children.filter (Hook.flowElement.concerns ·.kind) =
        e.children.flatMap fun c => [c].filter (Hook.flowElement.concerns ·.kind) := by
      rw [← List.filter_flatMap, ← List.map_eq_flatMap, List.map_id']
    rw [visits_eq, List.filter_append, List.map_append, filter_encounters_flowElement, hbelow,
      hsubtrees, hown]
    exact ((List.Perm.refl _).append (List.Perm.flatMap_left _ ih)).trans
      (List.flatMap_append_perm _ _ _)

end Element

namespace Scope

variable {s : Scope}

/-! ## The whole walk -/

theorem map_element_placed (s : Scope) :
    s.placed.map Placed.element = s.topLevel.flatMap Element.subtree := by
  rw [placed, List.map_flatMap]
  rfl

theorem visits_eq_topLevel (s : Scope) : s.visits = s.topLevel.flatMap Element.visits := by
  rw [visits_eq, placed, List.flatMap_assoc]
  refine List.flatMap_congr fun e _ => ?_
  rw [Element.visits, Element.subtree, List.flatMap_map]
  rfl

/-- A flow element has an owner. -/
theorem not_concerned_of_mem_topLevel {e : Element} (h : e ∈ s.topLevel) :
    Hook.flowElement.concerns e.kind = false := by
  rcases List.mem_append.mp h with h | h
  · obtain ⟨r, -, rfl⟩ := List.mem_map.mp h
    cases r with
    | collaboration c => exact Element.Flowless.not_concerned trivial
    | _ => rfl
  · obtain ⟨r, -, rfl⟩ := List.mem_map.mp h
    rfl

/-- **Apart from showing flow elements, each hook is called for the elements that it concerns**, in
the order of the tree. -/
theorem map_subject_visits (s : Scope) {hook : Hook} (h : hook ≠ .flowElement) :
    (s.visits.filter (·.hook = hook)).map Visit.subject =
      (s.placed.map Placed.element).filter (hook.concerns ·.kind) := by
  have hplaced : s.placed.map Placed.element = s.placed.flatMap fun p => [p.element] :=
    List.map_eq_flatMap
  rw [visits_eq, hplaced, List.filter_flatMap, List.map_flatMap, List.filter_flatMap]
  refine List.flatMap_congr fun p _ => (p.element.filter_encounters h).trans ?_
  rw [List.filter_singleton, cond_eq_ite]

/-- **The flow elements of the tree are shown**, those of one container together. -/
theorem perm_map_subject_visits (s : Scope) (hook : Hook) :
    ((s.visits.filter (·.hook = hook)).map Visit.subject).Perm
      ((s.placed.map Placed.element).filter (hook.concerns ·.kind)) := by
  by_cases h : hook = .flowElement
  · subst h
    rw [visits_eq_topLevel, map_element_placed, List.filter_flatMap, List.map_flatMap,
      List.filter_flatMap]
    refine List.Perm.flatMap_left _ fun e he => ?_
    have htop := not_concerned_of_mem_topLevel he
    rw [e.subtree_eq, List.filter_cons_of_neg (by rw [htop]; exact nofun)]
    exact e.perm_visits_flowElement
  · rw [s.map_subject_visits h]

/-- A hook is called for an element of the tree. -/
theorem exists_mem_placed_of_mem_visits {v : Visit} (h : v ∈ s.visits) :
    (∃ o, ⟨o, v.subject⟩ ∈ s.placed) ∧ v.hook.concerns v.subject.kind = true := by
  have hmem : v.subject ∈ (s.visits.filter (·.hook = v.hook)).map Visit.subject :=
    List.mem_map_of_mem (List.mem_filter.mpr ⟨h, decide_eq_true rfl⟩)
  obtain ⟨hplaced, hconcerns⟩ :=
    List.mem_filter.mp ((s.perm_map_subject_visits v.hook).mem_iff.mp hmem)
  obtain ⟨p, hp, heq⟩ := List.mem_map.mp hplaced
  exact ⟨⟨p.owner, heq ▸ hp⟩, hconcerns⟩

/-- Except where a flow element is shown, a hook is called at the element that it is called for. -/
theorem mem_encounters_subject {v : Visit} (h : v ∈ s.visits) (hhook : v.hook ≠ .flowElement) :
    v ∈ v.subject.encounters := by
  rw [visits_eq] at h
  obtain ⟨p, -, hv⟩ := List.mem_flatMap.mp h
  rwa [Element.subject_eq hv hhook]

/-- How often a hook is called for an identifier. -/
theorem countP_visits (s : Scope) (hook : Hook) (id : Id) :
    s.visits.countP (fun v => v.hook = hook ∧ v.subject.id = id) =
      s.placed.countP fun p => p.id = id ∧ hook.concerns p.element.kind := by
  have hperm := (s.perm_map_subject_visits hook).countP_eq (·.id = id)
  rw [List.countP_map, List.countP_filter, List.countP_filter, List.countP_map] at hperm
  refine (List.countP_congr fun v _ => ?_).trans (hperm.trans (List.countP_congr fun p _ => ?_))
  · simp [and_comm]
  · show (decide (p.id = id) && hook.concerns p.element.kind) = true ↔ _
    simp

/-! ## Coverage -/

/-- A walk leaves nothing out and meets nothing twice. -/
structure Covered (s : Scope) : Prop where
  /-- References are met at every element, in the pre-order of the tree. -/
  references : s.visits.filterMap Visit.element? = s.topLevel.flatMap Element.subtree
  /-- This happens as often as there are registered identifiers. -/
  size : (s.visits.filterMap Visit.element?).length = s.size
  /-- Every hook is called once for each registered identifier that it concerns, and for no other. -/
  once : ∀ hook id, s.visits.countP (fun v => v.hook = hook ∧ v.subject.id = id) =
    if (s.kindOf? id).any hook.concerns then 1 else 0
  /-- It is called with the element that is registered under the identifier. -/
  actual : ∀ v ∈ s.visits, s.get? v.subject.id = some v.subject
  /-- A container is met with its owner. -/
  container : ∀ x c, .container x c ∈ s.visits → x.container? = some c
  /-- A flow element is shown with the container that it stands in. -/
  flowElement : ∀ e c, .flowElement e c ∈ s.visits → ∃ x, s.containerOf? e.id = some (x, c)
  /-- The flow elements of a container are shown right after it, and nothing was called before for
  any child of the owner. -/
  shown : ∀ x c, .container x c ∈ s.visits → ∃ before after,
    s.visits = before ++ .container x c :: (c.visits ++ after) ∧ ∀ v ∈ before, v.subject ∉ x.children

end Scope

section Names

variable {α : Type} {name : α → Id} {xs : List α} (h : (xs.map name).Nodup) {x : α} (hx : x ∈ xs)

include h hx

/-- Among things with distinct names one alone has a given name. -/
theorem filter_of_nodup : xs.filter (name · = name x) = [x] := by
  obtain ⟨l, r, rfl⟩ := List.append_of_mem hx
  rw [List.map_append, List.map_cons, List.nodup_middle, List.nodup_cons, ← List.map_append] at h
  have others {ys : List α} (hys : ys ⊆ l ++ r) : ys.filter (name · = name x) = [] := by
    refine List.filter_eq_nil_iff.mpr fun y hy hname => h.1 ?_
    rw [← of_decide_eq_true hname]
    exact List.mem_map_of_mem (hys hy)
  rw [List.filter_append, List.filter_cons, if_pos (decide_eq_true rfl),
    others (List.subset_append_left l r), others (List.subset_append_right l r), List.nil_append]

/-- It counts once. -/
theorem countP_of_nodup (q : α → Bool) :
    xs.countP (fun y => name y = name x ∧ q y) = if q x then 1 else 0 := by
  have hone : (xs.filter (name · = name x)).countP q = if q x then 1 else 0 := by
    rw [filter_of_nodup h hx, List.countP_singleton]
  rw [← hone, List.countP_filter]
  refine List.countP_congr fun y _ => ?_
  simp [and_comm]

/-- What is found under a name is found at the one thing of that name. -/
theorem filter_flatMap_of_nodup {β : Type} {found : α → List β} {named : β → Id}
    (hnamed : ∀ y, ∀ d ∈ found y, named d = name y) :
    (xs.flatMap found).filter (named · = name x) = found x := by
  have one (y : α) : (found y).filter (named · = name x) =
      if name y = name x then found y else [] := by
    split
    · rename_i hname
      exact List.filter_eq_self.mpr fun d hd => decide_eq_true ((hnamed y d hd).trans hname)
    · rename_i hname
      exact List.filter_eq_nil_iff.mpr fun d hd heq =>
        hname ((hnamed y d hd).symm.trans (of_decide_eq_true heq))
  have hfilter (ys : List α) : (ys.flatMap found).filter (named · = name x) =
      (ys.filter (name · = name x)).flatMap found := by
    induction ys with
    | nil => rfl
    | cons y ys ih =>
      rw [List.flatMap_cons, List.filter_append, one, ih, List.filter_cons]
      by_cases hname : name y = name x <;> simp [hname]
  rw [hfilter, filter_of_nodup h hx, List.flatMap_singleton]

end Names

namespace Scope.Agrees

variable {s : Scope} (h : s.Agrees)

include h

theorem once (hook : Hook) (id : Id) :
    s.visits.countP (fun v => v.hook = hook ∧ v.subject.id = id) =
      if (s.kindOf? id).any hook.concerns then 1 else 0 := by
  rw [countP_visits, h.mirrors.kindOf?]
  cases hget : s.get? id with
  | some e =>
    obtain ⟨rfl, o, ho⟩ := (h.get?_iff _ _).mp hget
    exact countP_of_nodup h.records.nodup ho fun p => hook.concerns p.element.kind
  | none =>
    refine List.countP_eq_zero.mpr fun p hp hcounts => ?_
    have hfound := (h.get?_iff id p.element).mpr ⟨(of_decide_eq_true hcounts).1, p.owner, hp⟩
    cases hget.symm.trans hfound

/-- Nothing is met again later. -/
theorem not_again {before after : List Visit} (hvisits : s.visits = before ++ after) {v w : Visit}
    (hv : v ∈ before) (hw : w ∈ after) (hhook : w.hook = v.hook) (hid : w.subject.id = v.subject.id) :
    False := by
  have hbefore : 0 < before.countP (fun u => u.hook = v.hook ∧ u.subject.id = v.subject.id) :=
    List.countP_pos_iff.mpr ⟨v, hv, by simp⟩
  have hafter : 0 < after.countP (fun u => u.hook = v.hook ∧ u.subject.id = v.subject.id) :=
    List.countP_pos_iff.mpr ⟨w, hw, by simp [hhook, hid]⟩
  have honce := h.once v.hook v.subject.id
  rw [hvisits, List.countP_append] at honce
  split at honce <;> omega

theorem shown {x : Element} {c : Container} (hc : .container x c ∈ s.visits) :
    ∃ before after, s.visits = before ++ .container x c :: (c.visits ++ after) ∧
      ∀ v ∈ before, v.subject ∉ x.children := by
  obtain ⟨⟨o, ho⟩, -⟩ := exists_mem_placed_of_mem_visits hc
  have ho : ⟨o, x⟩ ∈ s.placed := ho
  have hcontainer : x.container? = some c :=
    Element.container?_eq_of_container (mem_encounters_subject hc nofun)
  have hown : x.encounters = x.own ++ .container x c :: c.visits := by
    rw [x.encounters_eq, hcontainer]
  obtain ⟨path, hpath⟩ : ∃ path, s.OwnerPath path x := exists_ownerPath ho
  obtain ⟨pre, owner, post, hplaced, -⟩ := hpath.split
  -- the children are met behind the container of their owner
  let below := x.children.flatMap (Element.placed (some x.id)) ++ post
  have hvisits : s.visits = (pre.flatMap Placed.encounters ++ x.own) ++
      .container x c :: (c.visits ++ below.flatMap Placed.encounters) := by
    rw [visits_eq, hplaced, x.placed_eq]
    simp [Placed.encounters, hown, below]
  refine ⟨_, _, hvisits, fun v hv hchild => ?_⟩
  by_cases hhook : v.hook = .flowElement
  · -- a flow element among the children is shown with the container
    obtain ⟨f, hf⟩ : ∃ f, v.subject = .flowElement f := by
      cases v with
      | flowElement f k => exact ⟨f, rfl⟩
      | _ => cases hhook
    obtain ⟨k, hk, hmem⟩ := Element.mem_container_of_mem_children (hf ▸ hchild)
    cases hcontainer.symm.trans hk
    refine h.not_again hvisits hv (w := .flowElement f c) ?_ hhook.symm (by rw [hf]; rfl)
    exact List.mem_cons_of_mem _ (List.mem_append_left _ (List.mem_map_of_mem hmem))
  · -- anything else is met again at the child itself
    refine h.not_again hvisits hv (w := v) ?_ rfl rfl
    have hv := mem_encounters_subject (hvisits ▸ List.mem_append_left _ hv) hhook
    refine List.mem_cons_of_mem _ (List.mem_append_right _ (List.mem_flatMap.mpr
      ⟨⟨some x.id, v.subject⟩, List.mem_append_left _ (List.mem_flatMap.mpr ⟨_, hchild, ?_⟩), hv⟩))
    exact Element.mem_placed_self _ _

/-- **A walk covers the tree.** -/
theorem covered : s.Covered where
  references := (filterMap_visits s).trans s.map_element_placed
  size := by
    rw [filterMap_visits, List.length_map, h.mirrors.size]
  once := h.once
  actual v hv := by
    obtain ⟨⟨o, ho⟩, -⟩ := exists_mem_placed_of_mem_visits hv
    exact (h.get?_iff _ _).mpr ⟨rfl, o, ho⟩
  container x c hc := Element.container?_eq_of_container (mem_encounters_subject hc nofun)
  flowElement e c he := by
    rw [visits_eq] at he
    obtain ⟨⟨o, x⟩, hx, he⟩ := List.mem_flatMap.mp he
    obtain ⟨hc, hmem⟩ := Element.container?_eq_of_flowElement he
    exact ⟨x, (h.containerOf?_iff _ _ _).mpr
      ⟨hc, ⟨o, hx⟩, .flowElement e, Element.flowElement_mem_children hc hmem, rfl⟩⟩
  shown x c hc := h.shown hc

end Scope.Agrees

/-- **After any run of edits a walk covers the tree.** Every hook is called once for each registered
identifier that it concerns. References are met in the order in which each element stands before the
trees of its children, and the flow elements of a container are shown, with this container, before
anything else happens at the children of its owner. -/
theorem Reachable.walk_covers {s : Scope} (h : Reachable s) :
    (∀ e : Element, e.subtree = e :: e.children.flatMap Element.subtree) ∧ s.Covered :=
  ⟨Element.subtree_eq, h.agrees.covered⟩

/-- A task in a sub-process in a process: the sub-process is shown before it is met, and so is the
task. -/
theorem Reachable.walk_covers_nested :
    let s := (Change.addFlowElement ⟨"sub"⟩ (.task (.bare ⟨"t"⟩) .manual)).after <|
      (Change.addFlowElement ⟨"p"⟩ (.subProcess (.bare ⟨"sub"⟩) false [] [] [])).after <|
        (Change.addRoot (.process (.bare ⟨"p"⟩))).after (Scope.fresh ⟨"Defs"⟩ "urn:t")
    s.Covered ∧ s.visits.map (fun v => (v.hook, v.subject.id.text)) =
      [(.process, "p"), (.references, "p"), (.container, "p"), (.flowElement, "sub"),
        (.references, "sub"), (.container, "sub"), (.flowElement, "t"), (.references, "t")] := by
  intro s
  have hs : Reachable s :=
    .after _ (.task _ _) nofun <|
      .after _ (.subProcess _ _ _ (List.forall_mem_nil _) (c := ⟨[], []⟩) rfl) nofun <|
        .after _ ⟨[], [], nofun, rfl⟩ nofun (.fresh _ _)
  exact ⟨hs.walk_covers.2, by decide +kernel⟩

end BpmnModel
