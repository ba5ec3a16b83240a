import BpmnModel.Proofs.Agreement
import BpmnModel.Proofs.Selection

/-!
# What a validation depends on

* `Scope.AnswersLike` — two scopes answer alike to all that checks ask of a scope, so that a step of
  a walk finds the same in both (`AnswersLike.findings_eq`).
* `Scope.findingsAt` — what is found at one element of the ownership tree.
* `Scope.flatMap_walk` — a walk finds this at every element, where the process that counts as the
  last one met is the one that the element is in.
-/

namespace BpmnModel

/-! ## Questions to the scope -/

namespace Scope

/-- The scopes give the same answers to whatever a check asks of a scope: what kind of element an
identifier leads to, which sequence flow it names, and what is registered under it. -/
structure AnswersLike (s t : Scope) : Prop where
  kind : ∀ id, (s.lookup id).map Element.kind = (t.lookup id).map Element.kind
  sequenceFlow : ∀ id, s.sequenceFlow? id = t.sequenceFlow? id
  slot : ∀ id, s.registry.slot? id = t.registry.slot? id

namespace AnswersLike

variable {s t : Scope} {o : ValidationOptions}

/-- A requirement is refused in both scopes or in none, and for the same reason. -/
theorem resolve_cases (h : s.AnswersLike t) (id : Id) (requires : Requirement) :
    (∃ x y, s.resolve id requires = .ok x ∧ t.resolve id requires = .ok y) ∨
      ∃ refusal, s.resolve id requires = .error refusal ∧ t.resolve id requires = .error refusal := by
  have hkind := h.kind id
  unfold resolve
  cases hs : s.lookup id with
  | none =>
    cases ht : t.lookup id with
    | none => exact .inr ⟨_, rfl, rfl⟩
    | some y => simp [hs, ht] at hkind
  | some x =>
    cases ht : t.lookup id with
    | none => simp [hs, ht] at hkind
    | some y =>
      have hkind : x.kind = y.kind := by simpa [hs, ht] using hkind
      simp only [hkind]
      split
      · exact .inl ⟨x, y, rfl, rfl⟩
      · exact .inr ⟨_, rfl, rfl⟩

theorem checkReferences_eq (h : s.AnswersLike t) (e : Element) :
    s.checkReferences e = t.checkReferences e := by
  refine List.filterMap_congr fun ref _ => ?_
  unfold resolveReference
  rcases h.resolve_cases ref.id ref.requires with ⟨x, y, hs, ht⟩ | ⟨refusal, hs, ht⟩
  · rw [hs, ht]
  · rw [hs, ht]

theorem checkLink_eq (h : s.AnswersLike t) (l : ConversationLink) :
    s.checkLink l = t.checkLink l := by
  have hsource := h.kind l.source.id
  have htarget := h.kind l.target.id
  unfold checkLink
  cases hs : s.lookup l.source.id <;> cases ht : t.lookup l.source.id <;>
    simp only [hs, ht, Option.map_some, Option.map_none, reduceCtorEq, Option.some.injEq] at hsource
  · rfl
  · cases hs' : s.lookup l.target.id <;> cases ht' : t.lookup l.target.id <;>
      simp only [hs', ht', Option.map_some, Option.map_none, reduceCtorEq,
        Option.some.injEq] at htarget
    · rfl
    · simp only [hsource, htarget]

theorem checkFlowElement_eq (h : s.AnswersLike t) (executable : Bool) (e : FlowElement)
    (c : Container) :
    s.checkFlowElement o executable e c = t.checkFlowElement o executable e c := by
  have hedge (node : Id) (side : EdgeSide) : s.checkEdge node side = t.checkEdge node side := by
    funext flow
    rw [checkEdge, checkEdge, h.sequenceFlow]
  have hedges (node : Id) (edges : Edges) : s.checkEdges node edges = t.checkEdges node edges := by
    simp only [checkEdges, hedge]
  have hdefault (node : Id) (flow : Option (RefTo .sequenceFlow)) :
      s.checkDefaultFlow node flow = t.checkDefaultFlow node flow := by
    simp only [checkDefaultFlow, h.sequenceFlow]
  have hends (f : SequenceFlow) : s.checkContainment f c = t.checkContainment f c := by
    simp only [checkContainment, checkEnd, h.slot]
  simp only [checkFlowElement, hedges, hdefault, hends]

/-- **A step of a walk finds the same in both scopes.** -/
theorem findings_eq (h : s.AnswersLike t) (executable : Bool) (v : Visit) :
    s.findings o executable v = t.findings o executable v := by
  cases v with
  | process p => rfl
  | collaboration c => rfl
  | link l => rw [findings, findings, meet, meet, h.checkLink_eq]
  | references e => rw [findings, findings, meet, meet, h.checkReferences_eq]
  | container e c => rfl
  | flowElement e c => rw [findings, findings, meet, meet, h.checkFlowElement_eq]

end AnswersLike

end Scope

/-! ## Element by element -/

namespace Visit

variable {executable : Bool} {vs : List Visit}

theorem inTurn_append (executable : Bool) (vs ws : List Visit) :
    inTurn executable (vs ++ ws) =
      inTurn executable vs ++ inTurn (vs.foldl Visit.executable executable) ws := by
  induction vs generalizing executable with
  | nil => rfl
  | cons v vs ih => rw [List.cons_append, inTurn, inTurn, ih, List.cons_append, List.foldl_cons]

theorem inTurn_eq_map (h : ∀ v ∈ vs, v.executable executable = executable) :
    inTurn executable vs = vs.map fun v => (executable, v) := by
  induction vs with
  | nil => rfl
  | cons v vs ih =>
    rw [inTurn, h v List.mem_cons_self, ih fun w hw => h w (List.mem_cons_of_mem v hw),
      List.map_cons]

end Visit

/-- Whether the root element is an executable process. -/
def Root.executable : Root → Bool
  | process p => p.isExecutable == some true
  | _ => false

namespace Element

variable {e : Element}

/-- Only at a process another process is met. -/
theorem executable_encounters (h : e.root? = none ∨ e.Flowless) (executable : Bool) :
    ∀ v ∈ e.encounters, v.executable executable = executable := by
  have contents (c : Container) : ∀ v ∈ c.visits, v.executable executable = executable :=
    List.forall_mem_map.mpr fun _ _ => rfl
  cases e with
  | root r =>
    cases r with
    | process p =>
      rcases h with h | h
      · cases h
      · exact h.elim
    | _ => simp [encounters, Visit.executable]
  | flowElement f =>
    cases f with
    | subProcess a t es ls as =>
      exact List.forall_mem_cons.mpr ⟨rfl, List.forall_mem_cons.mpr ⟨rfl, contents _⟩⟩
    | _ => simp [encounters, Visit.executable]
  | _ => simp [encounters, Visit.executable]

end Element

namespace Scope

variable (s : Scope) (o : ValidationOptions)

/-- What is found at an element, apart from what is found at its children. -/
def findingsAt (executable : Bool) (e : Element) : List Diagnostic :=
  e.encounters.flatMap (s.findings o executable)

theorem AnswersLike.findingsAt_eq {s t : Scope} (h : s.AnswersLike t) (executable : Bool)
    (e : Element) : s.findingsAt o executable e = t.findingsAt o executable e :=
  List.flatMap_congr fun v _ => h.findings_eq executable v

/-- Where no flow element is met it does not matter whether a process is executable. -/
theorem findings_of_flowless {e : Element} (h : e.Flowless) (executable executable' : Bool) :
    ∀ v ∈ e.encounters, s.findings o executable v = s.findings o executable' v := by
  cases e with
  | root r =>
    cases r with
    | process p => exact h.elim
    | collaboration c => exact List.forall_mem_cons.mpr ⟨rfl, List.forall_mem_singleton.mpr rfl⟩
    | _ => exact List.forall_mem_singleton.mpr rfl
  | flowElement f => exact h.elim
  | conversationLink l => exact List.forall_mem_cons.mpr ⟨rfl, List.forall_mem_singleton.mpr rfl⟩
  | _ => exact List.forall_mem_singleton.mpr rfl

/-- Along a root element a walk finds what is found at each element of its tree, whatever process
was met before. -/
theorem flatMap_inTurn_root (r : Root) (before : Bool) :
    ((Visit.inTurn before r.visits).flatMap fun x => s.findings o x.1 x.2) =
      ((Element.root r).placed none).flatMap fun p => s.findingsAt o r.executable p.element := by
  have hvisits : r.visits = ((Element.root r).placed none).flatMap Placed.encounters :=
    r.visits_eq none
  suffices h : ((Visit.inTurn before r.visits).flatMap fun x => s.findings o x.1 x.2) =
      r.visits.flatMap (s.findings o r.executable) by
    rw [h, hvisits, List.flatMap_assoc]
    rfl
  by_cases hflowless : (Element.root r).Flowless
  · -- no process here: the last one met stays, and nothing depends on it
    have hplaced : ∀ v ∈ r.visits, ∃ e : Element, e.Flowless ∧ v ∈ e.encounters := by
      intro v hv
      rw [hvisits] at hv
      obtain ⟨p, hp, hv⟩ := List.mem_flatMap.mp hv
      exact ⟨_, Element.forall_mem_placed (fun _ => Element.Flowless.children) hflowless none p hp, hv⟩
    rw [Visit.inTurn_eq_map, List.flatMap_map]
    · refine List.flatMap_congr fun v hv => ?_
      obtain ⟨e, he, hv⟩ := hplaced v hv
      exact s.findings_of_flowless o he before r.executable v hv
    · intro v hv
      obtain ⟨e, he, hv⟩ := hplaced v hv
      exact Element.executable_encounters (.inr he) before v hv
  · -- a process is met first, and no other one below it
    obtain ⟨p, rfl⟩ : ∃ p, r = .process p := by
      cases r with
      | process p => exact ⟨p, rfl⟩
      | _ => exact (hflowless trivial).elim
    let e := Element.root (.process p)
    let below := e.children.flatMap (Element.placed (some e.id))
    let own : List Visit := .references e :: .container e p.container :: p.container.visits
    have hhead : (Root.process p).visits =
        .process p :: (own ++ below.flatMap Placed.encounters) := by
      rw [hvisits, Element.placed_eq]
      rfl
    have hsteady : ∀ v ∈ own ++ below.flatMap Placed.encounters,
        v.executable (Root.process p).executable = (Root.process p).executable := by
      refine List.forall_mem_append.mpr
        ⟨List.forall_mem_cons.mpr ⟨rfl, List.forall_mem_cons.mpr ⟨rfl, ?_⟩⟩, ?_⟩
      · exact List.forall_mem_map.mpr fun _ _ => rfl
      · intro v hv
        obtain ⟨q, hq, hv⟩ := List.mem_flatMap.mp hv
        obtain ⟨c, hc, hq⟩ := List.mem_flatMap.mp hq
        have hroot : q.element.root? = none :=
          Element.forall_mem_placed (P := fun x => x.root? = none)
            (fun _ _ _ => Element.root?_of_mem_children) (Element.root?_of_mem_children hc) _ q hq
        exact Element.executable_encounters (.inl hroot) _ v hv
    rw [hhead, Visit.inTurn, List.flatMap_cons, List.flatMap_cons]
    congr 1
    show (Visit.inTurn (Root.process p).executable _).flatMap _ = _
    rw [Visit.inTurn_eq_map hsteady, List.flatMap_map]

/-- **What a walk finds, element by element**: at every element of the tree of a root element it
matters whether this root element is an executable process, and nothing else that was met. -/
theorem flatMap_walk :
    (s.walk.flatMap fun x => s.findings o x.1 x.2) =
      (s.roots.flatMap fun r =>
        ((Element.root r).placed none).flatMap fun p => s.findingsAt o r.executable p.element) ++
      s.relationships.flatMap fun r => s.findingsAt o false (.relationship r) := by
  have roots (rs : List Root) (before : Bool) (vs : List Visit) : ∃ after,
      ((Visit.inTurn before (rs.flatMap Root.visits ++ vs)).flatMap fun x => s.findings o x.1 x.2) =
        (rs.flatMap fun r =>
          ((Element.root r).placed none).flatMap fun p => s.findingsAt o r.executable p.element) ++
        (Visit.inTurn after vs).flatMap fun x => s.findings o x.1 x.2 := by
    induction rs generalizing before with
    | nil => exact ⟨before, rfl⟩
    | cons r rs ih =>
      obtain ⟨after, ih⟩ := ih (r.visits.foldl Visit.executable before)
      refine ⟨after, ?_⟩
      rw [List.flatMap_cons, List.append_assoc, Visit.inTurn_append, List.flatMap_append, ih,
        flatMap_inTurn_root, List.flatMap_cons, List.append_assoc]
  obtain ⟨after, h⟩ := roots s.roots false (s.relationships.map fun r => .references (.relationship r))
  rw [walk, visits, h, Visit.inTurn_eq_map (List.forall_mem_map.mpr fun _ _ => rfl), List.flatMap_map,
    List.flatMap_map]
  refine congrArg (_ ++ ·) (List.flatMap_congr fun r _ => ?_)
  show _ = [Visit.references (.relationship r)].flatMap (s.findings o false)
  rw [List.flatMap_singleton]
  rfl

variable {s o} in
/-- Scopes that own the same and answer alike get the same report. -/
theorem AnswersLike.validate_eq {t : Scope} (h : s.AnswersLike t) (hroots : t.roots = s.roots)
    (hrelationships : t.relationships = s.relationships) : t.validate o = s.validate o := by
  rw [validate, validate, found_eq, found_eq, flatMap_walk, flatMap_walk, hroots, hrelationships]
  simp only [h.findingsAt_eq]

end Scope

end BpmnModel
