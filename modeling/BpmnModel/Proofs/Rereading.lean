import BpmnModel.Proofs.Activities
import BpmnModel.Proofs.Completeness

/-!
# What is taken for something else when it is read

Tasks are implemented by a web service, by no technology in particular or by another technology that
is named.  A document has a name in all three cases, so another technology that goes by a reserved
name comes back as one of the first two.  Nothing else is lost in a document that can be written.

* `FlowElement.reread`, `Root.reread`, `Scope.reread` — what comes back.
* `FlowElement.Assembled.reread`, `Process.Assembled.reread` — it could be built as well.
* `Element.placed_reread` — it has the same ownership tree, apart from the technology of tasks.
-/

namespace BpmnModel

/-! ## Flow elements -/

namespace FlowElement

mutual

/-- The flow element that comes back from a document. -/
def reread : FlowElement → FlowElement
  | task a w => task a w.reread
  | callActivity a c => callActivity a c
  | subProcess a t es ls as => subProcess a t (allReread es) ls as
  | gateway g => gateway g
  | event e => event e
  | sequenceFlow f => sequenceFlow f

/-- Several flow elements, in order. -/
def allReread : List FlowElement → List FlowElement
  | [] => []
  | e :: es => reread e :: allReread es

end

theorem allReread_eq (es : List FlowElement) : allReread es = es.map reread := by
  induction es with
  | nil => rfl
  | cons e es ih => rw [allReread, ih, List.map_cons]

variable (e : FlowElement)

@[simp]
theorem base_reread : e.reread.base = e.base := by
  cases e <;> rfl

@[simp]
theorem id_reread : e.reread.id = e.id := congrArg FlowBase.id e.base_reread

@[simp]
theorem kind_reread : e.reread.kind = e.kind := by
  cases e with
  | task a w => exact w.kind_reread
  | _ => rfl

@[simp]
theorem references_reread : e.reread.references = e.references := by
  cases e with
  | task a w => exact congrArg (a.references ++ ·) w.references_reread
  | _ => rfl

@[simp]
theorem edges?_reread : e.reread.edges? = e.edges? := by
  cases e <;> rfl

@[simp]
theorem sequenceFlow?_reread : e.reread.sequenceFlow? = e.sequenceFlow? := by
  cases e <;> rfl

end FlowElement

/-! ## Containers -/

namespace Container

/-- The contents that come back from a document. -/
def reread (c : Container) : Container := ⟨c.elements.map FlowElement.reread, c.laneSets⟩

variable {c : Container}

theorem map_id_reread (es : List FlowElement) :
    (es.map FlowElement.reread).map FlowElement.id = es.map FlowElement.id := by
  rw [List.map_map]
  exact List.map_congr_left fun e _ => e.id_reread

theorem find?_reread (c : Container) (id : Id) : c.reread.find? id = (c.find? id).map .reread := by
  simp only [find?, reread, List.find?_map, Function.comp_def, FlowElement.id_reread]

@[simp]
theorem sequenceFlows_reread (c : Container) : c.reread.sequenceFlows = c.sequenceFlows := by
  simp only [sequenceFlows, reread, List.filterMap_map, Function.comp_def,
    FlowElement.sequenceFlow?_reread]

/-- Flows stay listed where they were. -/
theorem Wired.reread (h : c.Wired) : c.reread.Wired where
  nodup := (map_id_reread c.elements).symm ▸ h.nodup
  listed := by
    rw [sequenceFlows_reread]
    refine fun flow hflow => List.forall_mem_map.mpr fun e he => ?_
    simpa only [FlowElement.attach_eq_self_iff, FlowElement.edges?_reread,
      FlowElement.id_reread] using h.listed flow hflow e he

end Container

theorem FlowElement.Assembled.reread {e : FlowElement} (h : e.Assembled) : e.reread.Assembled := by
  induction e using contents_induction with
  | step e ih =>
    cases e with
    | subProcess a t es ls as =>
      have hcomplete := assembled_subProcess_iff.mp h
      rw [FlowElement.reread, allReread_eq]
      refine assembled_subProcess_iff.mpr ⟨hcomplete.wired.reread, List.forall_mem_map.mpr ?_⟩
      exact fun e he => ih _ rfl e he (hcomplete.inner e he)
    | task a w => exact .task a w.reread
    | callActivity a c => exact h
    | gateway g => exact h
    | event e => exact h
    | sequenceFlow f => exact h

theorem Container.Complete.reread {c : Container} (h : c.Complete) : c.reread.Complete :=
  ⟨h.wired.reread, List.forall_mem_map.mpr fun e he => (h.inner e he).reread⟩

/-! ## Root elements -/

/-- The process that comes back from a document. -/
def Process.reread (p : Process) : Process := { p with container := p.container.reread }

theorem Process.Assembled.reread {p : Process} (h : p.Assembled) : p.reread.Assembled :=
  assembled_iff.mpr (assembled_iff.mp h).reread

/-- The root element that comes back from a document. -/
def Root.reread : Root → Root
  | process p => process p.reread
  | r => r

/-! ## Elements -/

namespace Element

/-- The element that comes back from a document. -/
def reread : Element → Element
  | root r => root r.reread
  | flowElement e => flowElement e.reread
  | e => e

variable (e : Element)

theorem identity_reread : e.reread.identity = e.identity := by
  cases e with
  | root r => cases r <;> rfl
  | flowElement e => exact congrArg FlowBase.identity e.base_reread
  | _ => rfl

@[simp]
theorem id_reread : e.reread.id = e.id := congrArg Identity.id e.identity_reread

@[simp]
theorem kind_reread : e.reread.kind = e.kind := by
  cases e with
  | root r => cases r <;> rfl
  | flowElement e => exact e.kind_reread
  | _ => rfl

@[simp]
theorem references_reread : e.reread.references = e.references := by
  cases e with
  | root r => cases r <;> rfl
  | flowElement e => exact e.references_reread
  | _ => rfl

theorem children_reread : e.reread.children = e.children.map reread := by
  have contents (c : Container) (artifacts : List Artifact) :
      c.reread.owned ++ artifacts.map artifact =
        (c.owned ++ artifacts.map artifact).map reread := by
    simp only [Container.owned, Container.reread, List.map_append, List.map_map, Function.comp_def,
      reread]
  cases e with
  | root r =>
    cases r with
    | process p => exact contents p.container p.artifacts
    | _ => simp [reread, Root.reread, children, Function.comp_def]
  | flowElement e =>
    cases e with
    | subProcess a t es ls as =>
      rw [reread, FlowElement.reread, FlowElement.allReread_eq]
      exact contents ⟨es, ls⟩ as
    | _ => rfl
  | _ => simp [reread, children, Function.comp_def]

end Element

/-- The element with its owner that comes back from a document. -/
def Placed.reread (p : Placed) : Placed := ⟨p.owner, p.element.reread⟩

@[simp]
theorem Placed.slot_reread (p : Placed) : p.reread.slot = p.slot := by
  simp [Placed.slot, Placed.id, reread]

/-- **What comes back stands where it stood.** -/
theorem Element.placed_reread (e : Element) (owner : Option Id) :
    e.reread.placed owner = (e.placed owner).map Placed.reread :=
  placed_map id_reread children_reread e owner

/-! ## Scopes -/

namespace Scope

/-- The scope that comes back from a document, apart from its registry and from what its imports are
bound to. -/
def reread (s : Scope) : Scope := { s with roots := s.roots.map Root.reread }

variable {s : Scope}

theorem topLevel_reread (s : Scope) : s.reread.topLevel = s.topLevel.map Element.reread := by
  simp only [topLevel, reread, List.map_append, List.map_map, Function.comp_def, Element.reread]

theorem placed_reread (s : Scope) : s.reread.placed = s.placed.map Placed.reread := by
  rw [placed, topLevel_reread, List.flatMap_map, placed, List.map_flatMap]
  exact List.flatMap_congr fun e _ => e.placed_reread none

theorem Agrees.reread (h : s.Agrees) : s.reread.Agrees := by
  refine h.keep rfl rfl (.of_eq ?_)
  rw [slots, slots, placed_reread, List.map_map]
  exact List.map_congr_left fun p _ => p.slot_reread.symm

end Scope

end BpmnModel
