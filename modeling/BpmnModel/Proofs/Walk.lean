import BpmnModel.Proofs.Ownership
import BpmnModel.Validation.Validate

/-!
# What a validation meets

* `Element.encounters` — what a walk meets at one element of the ownership tree.
* `Scope.visits_eq` — a walk meets this at every element of the tree, in the order of the tree.
* `Scope.findings_of_clean` — if a report is clean then no check that was made found anything.
-/

namespace BpmnModel

/-! ## The walk along the ownership tree -/

namespace Element

/-- What a walk meets at the element, apart from what it meets at its children. -/
def encounters : Element → List Visit
  | root (.process p) =>
    .process p :: .references (root (.process p)) :: .container (root (.process p)) p.container ::
      p.container.visits
  | root (.collaboration c) => [.collaboration c, .references (root (.collaboration c))]
  | conversationLink l => [.link l, .references (conversationLink l)]
  | flowElement (.subProcess a t es ls as) =>
    .references (flowElement (.subProcess a t es ls as)) ::
      .container (flowElement (.subProcess a t es ls as)) ⟨es, ls⟩ :: Container.visits ⟨es, ls⟩
  | e => [.references e]

theorem references_mem_encounters (e : Element) : .references e ∈ e.encounters := by
  cases e with
  | root r => cases r <;> simp [encounters]
  | flowElement f => cases f <;> simp [encounters]
  | _ => simp [encounters]

/-- What is met at an element, but for what its container gives. -/
def own (e : Element) : List Visit :=
  match e with
  | root (.process p) => [.process p, .references e]
  | flowElement _ => [.references e]
  | _ => e.encounters

/-- The owner of a container meets it last and shows what stands there. -/
theorem encounters_eq (e : Element) : e.encounters = e.own ++
    match e.container? with
    | some c => .container e c :: c.visits
    | none => [] := by
  cases e with
  | root r => cases r <;> rfl
  | flowElement f => cases f <;> rfl
  | _ => rfl

theorem visits_subset_encounters {e : Element} {c : Container} (hc : e.container? = some c) :
    c.visits ⊆ e.encounters := by
  intro v hv
  rw [e.encounters_eq, hc]
  exact List.mem_append_right _ (List.mem_cons_of_mem _ hv)

end Element

/-- What a walk meets at the elements of a listing. -/
def Placed.encounters (p : Placed) : List Visit := p.element.encounters

/-- Elements at which only their references are met. -/
theorem Placed.flatMap_encounters_map {α : Type} (mk : α → Element) (owner : Option Id) (xs : List α)
    (h : ∀ x, (mk x).encounters = [.references (mk x)]) :
    (xs.map fun x => (⟨owner, mk x⟩ : Placed)).flatMap Placed.encounters =
      xs.map fun x => .references (mk x) := by
  rw [List.flatMap_map, List.map_eq_flatMap]
  simp only [Placed.encounters, h]

open Placed (flatMap_encounters_map)

theorem LaneSet.visits_eq (s : LaneSet) (owner : Option Id) :
    s.visits = (s.placed owner).flatMap Placed.encounters := by
  rw [LaneSet.placed, List.flatMap_cons, flatMap_encounters_map Element.lane _ _ fun _ => rfl]
  rfl

theorem LaneSet.flatMap_visits (ls : List LaneSet) (owner : Option Id) :
    ls.flatMap visits = (ls.flatMap (placed owner)).flatMap Placed.encounters := by
  rw [List.flatMap_assoc]
  simp only [← visits_eq]

namespace ConversationNode

mutual

theorem visits_eq : ∀ (n : ConversationNode) (owner : Option Id),
    n.visits = (n.placed owner).flatMap Placed.encounters
  | conversation b fs, owner => by
    rw [visits, placed, List.flatMap_cons,
      flatMap_encounters_map Element.correlationKey _ _ fun _ => rfl]
    rfl
  | subConversation b fs ns, owner => by
    rw [visits, placed, List.flatMap_cons, List.flatMap_append,
      flatMap_encounters_map Element.correlationKey _ _ fun _ => rfl, ← allVisits_eq ns]
    rfl
  | callConversation b c as, owner => by
    rw [visits, placed, List.flatMap_cons,
      flatMap_encounters_map Element.correlationKey _ _ fun _ => rfl]
    rfl

theorem allVisits_eq : ∀ (ns : List ConversationNode) (owner : Id),
    allVisits ns = (placedAll owner ns).flatMap Placed.encounters
  | [], _ => rfl
  | n :: ns, owner => by
    rw [allVisits, placedAll, List.flatMap_append, ← visits_eq n, ← allVisits_eq ns]

end

end ConversationNode

namespace FlowElement

mutual

theorem visits_eq : ∀ (e : FlowElement) (owner : Option Id),
    e.visits = (e.placed owner).flatMap Placed.encounters
  | subProcess a t es ls as, owner => by
    rw [visits, placed, List.flatMap_cons, List.flatMap_append, List.flatMap_append,
      flatMap_encounters_map Element.artifact _ _ fun _ => rfl, ← LaneSet.flatMap_visits,
      ← allVisits_eq es]
    simp only [Placed.encounters, Element.encounters, List.cons_append, List.append_assoc]
  | task a w, owner => rfl
  | callActivity a c, owner => rfl
  | gateway g, owner => rfl
  | event e, owner => rfl
  | sequenceFlow f, owner => rfl

theorem allVisits_eq : ∀ (es : List FlowElement) (owner : Id),
    allVisits es = (placedAll owner es).flatMap Placed.encounters
  | [], _ => rfl
  | e :: es, owner => by
    rw [allVisits, placedAll, List.flatMap_append, ← visits_eq e, ← allVisits_eq es]

end

end FlowElement

theorem Root.visits_eq (r : Root) (owner : Option Id) :
    r.visits = (r.placed owner).flatMap Placed.encounters := by
  cases r with
  | process p =>
    simp only [visits, placed, Process.visits, List.flatMap_cons, List.flatMap_append,
      Function.comp_def]
    rw [flatMap_encounters_map Element.artifact _ _ fun _ => rfl, ← LaneSet.flatMap_visits,
      ← FlowElement.allVisits_eq]
    simp only [Placed.encounters, Element.encounters, List.cons_append, List.append_assoc]
  | collaboration c =>
    simp only [visits, placed, Collaboration.visits, List.flatMap_cons, List.flatMap_append,
      Function.comp_def]
    rw [flatMap_encounters_map Element.participant _ _ fun _ => rfl,
      flatMap_encounters_map Element.messageFlow _ _ fun _ => rfl,
      flatMap_encounters_map Element.artifact _ _ fun _ => rfl,
      flatMap_encounters_map Element.correlationKey _ _ fun _ => rfl,
      ← ConversationNode.allVisits_eq, List.flatMap_map]
    simp only [Placed.encounters, Element.encounters, List.cons_append, List.nil_append]
  | interface i =>
    rw [placed, List.flatMap_cons, Function.comp_def,
      flatMap_encounters_map Element.operation _ _ fun _ => rfl]
    rfl
  | resource x =>
    rw [placed, List.flatMap_cons, Function.comp_def,
      flatMap_encounters_map Element.resourceParameter _ _ fun _ => rfl]
    rfl
  | category x =>
    rw [placed, List.flatMap_cons, Function.comp_def,
      flatMap_encounters_map Element.categoryValue _ _ fun _ => rfl]
    rfl
  | _ => rfl

namespace Scope

variable {s : Scope}

/-- **A walk meets every element of the ownership tree, in the order of the tree.** -/
theorem visits_eq (s : Scope) : s.visits = s.placed.flatMap Placed.encounters := by
  rw [visits, placed, topLevel, List.flatMap_append, List.flatMap_append, List.flatMap_map,
    List.flatMap_assoc, List.flatMap_map, List.flatMap_assoc, List.map_eq_flatMap]
  congr 1
  exact congrArg (s.roots.flatMap ·) (funext fun r => r.visits_eq none)

theorem references_mem_visits {o : Option Id} {e : Element} (h : ⟨o, e⟩ ∈ s.placed) :
    .references e ∈ s.visits := by
  rw [visits_eq]
  exact List.mem_flatMap.mpr ⟨_, h, e.references_mem_encounters⟩

theorem flowElement_mem_visits {o : Option Id} {x : Element} {c : Container} {e : FlowElement}
    (h : ⟨o, x⟩ ∈ s.placed) (hc : x.container? = some c) (he : e ∈ c.elements) :
    .flowElement e c ∈ s.visits := by
  rw [visits_eq]
  exact List.mem_flatMap.mpr ⟨_, h, x.visits_subset_encounters hc (List.mem_map_of_mem he)⟩

/-! ## Clean reports -/

/-- A step of the walk keeps what was found and adds to it. -/
theorem found_prefix_meet (s : Scope) (o : ValidationOptions) (pass : Pass) (v : Visit) :
    pass.found <+: (s.meet o pass v).found := by
  cases v with
  | container owner c => exact List.prefix_rfl
  | _ => exact List.prefix_append _ _

theorem found_prefix_foldl (s : Scope) (o : ValidationOptions) (pass : Pass) (vs : List Visit) :
    pass.found <+: (vs.foldl (s.meet o) pass).found := by
  induction vs generalizing pass with
  | nil => exact List.prefix_rfl
  | cons v vs ih => exact (s.found_prefix_meet o pass v).trans (ih _)

/-- What is found when something is met stays among the findings. -/
theorem exists_pass_of_mem {o : ValidationOptions} {vs : List Visit} {v : Visit} (hv : v ∈ vs)
    (pass : Pass) :
    ∃ before, (s.meet o before v).found <+: (vs.foldl (s.meet o) pass).found := by
  induction vs generalizing pass with
  | nil => cases hv
  | cons w vs ih =>
    rcases List.mem_cons.mp hv with rfl | hv
    · exact ⟨pass, s.found_prefix_foldl o _ vs⟩
    · exact ih hv _

end Scope

/-- Sorting drops no finding. -/
theorem Report.isClean_sorted {found : List Diagnostic} :
    (sorted found).isClean = true ↔ found = [] := by
  constructor
  · intro h
    have hnil : (sorted found).diagnostics = [] := List.isEmpty_iff.mp h
    obtain ⟨herrors, hwarnings⟩ := List.append_eq_nil_iff.mp hnil
    rw [List.eq_nil_iff_forall_not_mem]
    intro d hd
    cases hseverity : d.severity with
    | error => exact List.filter_eq_nil_iff.mp herrors d hd (by simp [hseverity])
    | warning => exact List.filter_eq_nil_iff.mp hwarnings d hd (by simp [hseverity])
  · rintro rfl
    rfl

namespace Scope

variable {s : Scope} {o : ValidationOptions}

/-- **Under a clean report no step of the walk found anything.** -/
theorem findings_of_clean (h : (s.validate o).isClean = true) {v : Visit} (hv : v ∈ s.visits) :
    ∃ before : Pass, (s.meet o before v).found = [] := by
  obtain ⟨before, hprefix⟩ := exists_pass_of_mem (s := s) (o := o) hv .start
  rw [Report.isClean_sorted.mp h] at hprefix
  exact ⟨before, List.prefix_nil.mp hprefix⟩

end Scope

end BpmnModel
