import BpmnModel.Proofs.RoundTrip
import BpmnModel.Proofs.Verdicts

/-!
# A document gets the verdict of the model that it was written from

What comes back from a document has the elements that were written, in the same order, and no check
looks at the technology of a task.  So nothing is found in it that was not found before, and the
findings stand in the same order.

* `Scope.ComesBackAs` — what comes back answers like what was written (`ComesBackAs.answersLike`).
* `Scope.findingsAt_reread` — the findings at an element that comes back are those at the element.
* `Scope.validate_of_toDocument` — so the reports are the same.
-/

namespace BpmnModel

namespace Scope

variable {s t : Scope}

/-! ## What checks ask -/

/-- The second scope is what comes back from a document to which the first was written. -/
def ComesBackAs (s t : Scope) : Prop := t = { s.reread with registry := t.registry }

namespace ComesBackAs

theorem placed_eq (h : s.ComesBackAs t) : t.placed = s.placed.map Placed.reread := by
  rw [← s.placed_reread, h]
  rfl

theorem matches_reread (h : s.ComesBackAs t) : Matches (fun x y => y = x.reread) s t where
  id_eq := by
    rw [h]
    rfl
  placed := by
    rw [h.placed_eq]
    exact .of_forall₂ (List.forall₂_map_right_iff.mpr (List.forall₂_same.mpr fun p _ =>
      ⟨p.slot_reread.symm, rfl⟩))

end ComesBackAs

theorem lookup_of_unbound (h : ∀ i ∈ s.imports, i.scope? = none) (id : Id) :
    s.lookup id = s.get? id := by
  rw [lookup_step, List.filterMap_eq_nil_iff.mpr h, List.findSome?_nil, Option.or_none]

/-- **What comes back from a document answers like what was written.** -/
theorem ComesBackAs.answersLike (h : s.ComesBackAs t) (hs : s.Agrees) (ht : t.Agrees)
    (hbound : ∀ i ∈ s.imports, i.scope? = none) : s.AnswersLike t where
  kind id := by
    have himports : t.imports = s.imports := by
      rw [h]
      rfl
    rw [lookup_of_unbound hbound, lookup_of_unbound (himports ▸ hbound), Option.map_eq_bind,
      Option.map_eq_bind]
    refine bind_eq_of_rel (h.matches_reread.rel_get? hs ht id) fun x _ hxy => ?_
    rw [hxy, Function.comp_apply, Function.comp_apply, x.kind_reread]
  sequenceFlow id := by
    rw [sequenceFlow?, sequenceFlow?, Option.bind_assoc, Option.bind_assoc]
    refine bind_eq_of_rel (h.matches_reread.rel_get? hs ht id) fun x _ hxy => ?_
    subst hxy
    cases x with
    | flowElement e => exact e.sequenceFlow?_reread.symm
    | _ => rfl
  slot := h.matches_reread.slot?_eq hs ht

/-! ## What checks find -/

variable (s : Scope) (o : ValidationOptions)

theorem checkFlowElement_reread (executable : Bool) (e : FlowElement) (c : Container) :
    s.checkFlowElement o executable e.reread c.reread = s.checkFlowElement o executable e c := by
  cases e with
  | gateway g =>
    simp only [FlowElement.reread, checkFlowElement, checkGatewayDegree, checkMixedGateway,
      Container.degrees, Container.sequenceFlows_reread]
    rfl
  | sequenceFlow f =>
    have hend (theEnd : Id) : (c.reread.find? theEnd).isSome = (c.find? theEnd).isSome := by
      rw [Container.find?_reread, Option.isSome_map]
    simp only [FlowElement.reread, checkFlowElement, checkContainment, s.checkEnd_eq (hend _)]
  | _ => rfl

/-- **The findings at an element that comes back are those at the element.** -/
theorem findingsAt_reread (executable : Bool) (e : Element) :
    s.findingsAt o executable e.reread = s.findingsAt o executable e := by
  have references : s.findings o executable (.references e.reread) =
      s.findings o executable (.references e) := by
    simp only [findings, meet, checkReferences, Element.references_reread, Element.id_reread]
  have contents (c : Container) : c.reread.visits.flatMap (s.findings o executable) =
      c.visits.flatMap (s.findings o executable) := by
    rw [Container.visits, Container.visits, Container.reread, List.flatMap_map, List.flatMap_map,
      List.flatMap_map]
    exact List.flatMap_congr fun x _ => s.checkFlowElement_reread o executable x c
  cases e with
  | root r =>
    cases r with
    | process p => exact congrArg (_ ++ ·) (congrArg₂ (· ++ ·) references (contents p.container))
    | _ => rfl
  | flowElement e =>
    cases e with
    | subProcess a t es ls as =>
      rw [Element.reread, FlowElement.reread, FlowElement.allReread_eq] at references ⊢
      exact congrArg₂ (· ++ ·) references (contents ⟨es, ls⟩)
    | task a w => exact congrArg (· ++ _) references
    | _ => rfl
  | _ => rfl

variable {s}

/-! ## The verdict -/

theorem ComesBackAs.found_eq (h : s.ComesBackAs t) (hs : s.Agrees) (ht : t.Agrees)
    (hbound : ∀ i ∈ s.imports, i.scope? = none) :
    (t.walk.flatMap fun x => t.findings o x.1 x.2) =
      s.walk.flatMap fun x => s.findings o x.1 x.2 := by
  have hanswers := h.answersLike hs ht hbound
  have hroots : t.roots = s.roots.map Root.reread := by
    rw [h]
    rfl
  have hrelationships : t.relationships = s.relationships := by
    rw [h]
    rfl
  have hroot (r : Root) : (((Element.root r.reread).placed none).flatMap fun p =>
      s.findingsAt o r.reread.executable p.element) =
        ((Element.root r).placed none).flatMap fun p => s.findingsAt o r.executable p.element := by
    have hexecutable : r.reread.executable = r.executable := by
      cases r <;> rfl
    rw [hexecutable, show Element.root r.reread = (Element.root r).reread from rfl,
      Element.placed_reread, List.flatMap_map]
    exact List.flatMap_congr fun p _ => s.findingsAt_reread o r.executable p.element
  rw [flatMap_walk, flatMap_walk, hroots, hrelationships, List.flatMap_map]
  simp only [← hanswers.findingsAt_eq, hroot]

/-- **Normalisation does not change the verdict.** A scope without bound imports that can be written
is read back, and the report on what comes back is the report on the scope, diagnostic by
diagnostic. It makes no difference that another technology with a reserved name comes back as the
one that has this name. -/
theorem validate_of_toDocument (h : Reachable s) (hbound : ∀ i ∈ s.imports, i.scope? = none)
    {d : Document} (hd : s.toDocument = .ok d) :
    (∃ t, ofDocument d = .ok t) ∧
      ∀ t, ofDocument d = .ok t → ∀ o, t.validate o = s.validate o := by
  obtain ⟨registry, hof, ht⟩ := exists_reread_of_toDocument h hbound hd
  refine ⟨⟨_, hof⟩, fun t hread o => ?_⟩
  cases hof.symm.trans hread
  have hfound := ComesBackAs.found_eq o (t := { s.reread with registry }) rfl h.agrees ht.agrees hbound
  rw [validate, validate, Scope.found_eq, Scope.found_eq, hfound]

/-- A process with a service task that names its technology as web services are named, and with a
flow that leads nowhere. -/
def misspelled : Scope :=
  (Change.addFlowElement ⟨"p"⟩
      (.sequenceFlow ⟨⟨.bare ⟨"f"⟩, none, []⟩, ⟨⟨"t"⟩⟩, ⟨⟨"x"⟩⟩, none, none⟩)).after <|
    (Change.addFlowElement ⟨"p"⟩ (.task (.bare ⟨"t"⟩) (.service (.other "##WebService") none))).after
      ((Change.addRoot (.process (.bare ⟨"p"⟩))).after (fresh ⟨"Defs"⟩ "urn:t"))

/-- The technology changes, the verdict stays. -/
theorem validate_of_toDocument_misspelled :
    ∃ d t, misspelled.toDocument = .ok d ∧ ofDocument d = .ok t ∧
      misspelled.same t = false ∧ (misspelled.validate default).hasErrors = true ∧
        t.validate default = misspelled.validate default := by
  have hs : Reachable misspelled :=
    .after _ (.sequenceFlow _) nofun <| .after _ (.task _ _) nofun <|
      .after _ ⟨[], [], nofun, rfl⟩ nofun (.fresh _ _)
  obtain ⟨d, hd⟩ : ∃ d, misspelled.toDocument = .ok d := ⟨_, rfl⟩
  obtain ⟨⟨t, ht⟩, hverdict⟩ := validate_of_toDocument hs nofun hd
  refine ⟨d, t, hd, ht, ?_, by decide +kernel, hverdict t ht default⟩
  have hchanged : (misspelled.toDocument.toOption.bind fun d =>
      (ofDocument d).toOption.map misspelled.same) = some false := by decide +kernel
  simpa [hd, ht, Except.toOption] using hchanged

end Scope

end BpmnModel
