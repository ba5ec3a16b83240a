import BpmnModel.Proofs.Walk

/-!
# Which rule finds what

* `OfRule` — findings of one rule, as severe as this rule is; every check has a lemma that says so.
* `Scope.severity_of_mem_found` — at no point of a walk is a finding more or less severe than its
  rule, so that sorting a report keeps the order within a rule (`Report.byRule_sorted`).
* `Scope.byRule_references` — the diagnostics of reference resolution are those of the elements of
  the ownership tree, in the order of the tree.
-/

namespace BpmnModel

/-- How severe the problems are that a rule finds. -/
def Rule.severity : Rule → Severity
  | mixedGateway => .warning
  | _ => .error

/-- The rule looks at flow elements. -/
def Rule.onFlowElements : Rule → Bool
  | gatewayDegree | flowNodeEdges | sequenceFlowContainment | executableImmediacy | defaultFlow
  | mixedGateway => true
  | _ => false

/-- Everything found is of this rule, and as severe as the rule is. -/
def OfRule (rule : Rule) (found : List Diagnostic) : Prop :=
  ∀ d ∈ found, d.rule = rule ∧ d.severity = rule.severity

namespace OfRule

variable {rule : Rule} {found found' : List Diagnostic}

theorem nil (rule : Rule) : OfRule rule [] := List.forall_mem_nil _

theorem append (h : OfRule rule found) (h' : OfRule rule found') :
    OfRule rule (found ++ found') :=
  List.forall_mem_append.mpr ⟨h, h'⟩

theorem check (h : OfRule rule found) (o : ValidationOptions) :
    OfRule rule (o.check rule found) := by
  unfold ValidationOptions.check
  split
  · exact h
  · exact .nil rule

/-- The findings of a rule are all of the findings of this rule, and none of another one. -/
theorem filter_eq (h : OfRule rule found) (r : Rule) :
    found.filter (·.rule = r) = if rule = r then found else [] := by
  split
  · rename_i hr
    exact List.filter_eq_self.mpr fun d hd => decide_eq_true ((h d hd).1.trans hr)
  · rename_i hr
    exact List.filter_eq_nil_iff.mpr fun d hd hrule =>
      hr ((h d hd).1.symm.trans (of_decide_eq_true hrule))

end OfRule

/-- Everything found is of other rules, and as severe as its rule is. -/
def OfOthers (rule : Rule) (found : List Diagnostic) : Prop :=
  ∀ d ∈ found, d.rule ≠ rule ∧ d.severity = d.rule.severity

theorem OfRule.others {rule other : Rule} {found : List Diagnostic} (h : OfRule other found)
    (hne : other ≠ rule) : OfOthers rule found := by
  intro d hd
  obtain ⟨hrule, hseverity⟩ := h d hd
  rw [hrule]
  exact ⟨hne, hseverity⟩

namespace OfOthers

variable {rule : Rule} {found found' : List Diagnostic}

theorem nil (rule : Rule) : OfOthers rule [] := List.forall_mem_nil _

theorem append (h : OfOthers rule found) (h' : OfOthers rule found') :
    OfOthers rule (found ++ found') :=
  List.forall_mem_append.mpr ⟨h, h'⟩

theorem filter_eq (h : OfOthers rule found) : found.filter (·.rule = rule) = [] :=
  List.filter_eq_nil_iff.mpr fun d hd hrule => (h d hd).1 (of_decide_eq_true hrule)

end OfOthers

/-! ## The checks -/

theorem checkPublicProcess_ofRule (p : Process) :
    OfRule .publicProcessExecutable (checkPublicProcess p) := by
  unfold checkPublicProcess
  split <;> simp [OfRule, Rule.severity]

theorem checkGlobalConversation_ofRule (c : Collaboration) :
    OfRule .globalConversation (checkGlobalConversation c) := by
  unfold checkGlobalConversation
  simp only
  split <;> simp [OfRule, Rule.severity]

theorem checkGatewayDegree_ofRule (g : Gateway) (c : Container) :
    OfRule .gatewayDegree (checkGatewayDegree g c) := by
  unfold checkGatewayDegree
  simp only
  split
  · split <;> simp [OfRule, Rule.severity]
  · split <;> simp [OfRule, Rule.severity]
  · exact .nil _
  · exact .nil _

theorem checkMixedGateway_ofRule (g : Gateway) (c : Container) :
    OfRule .mixedGateway (checkMixedGateway g c) := by
  unfold checkMixedGateway
  simp only
  split <;> simp [OfRule, Rule.severity]

theorem checkImmediacy_ofRule (executable : Bool) (f : SequenceFlow) :
    OfRule .executableImmediacy (checkImmediacy executable f) := by
  unfold checkImmediacy
  split <;> simp [OfRule, Rule.severity]

namespace Scope

variable (s : Scope)

theorem checkReferences_ofRule (e : Element) :
    OfRule .referenceResolution (s.checkReferences e) := by
  intro d hd
  obtain ⟨ref, -, hfound⟩ := List.mem_filterMap.mp hd
  cases hresolve : s.resolveReference ref with
  | ok x => simp [hresolve] at hfound
  | error error =>
    rw [hresolve] at hfound
    cases error <;> cases hfound <;> exact ⟨rfl, rfl⟩

theorem checkLink_ofRule (l : ConversationLink) :
    OfRule .conversationLinkEndpoints (s.checkLink l) := by
  unfold checkLink
  split
  · simp only
    split <;> simp [OfRule, Rule.severity]
  · exact .nil _

theorem checkEdges_ofRule (node : Id) (edges : Edges) :
    OfRule .flowNodeEdges (s.checkEdges node edges) := by
  have side (side : EdgeSide) (flows : List Id) :
      OfRule .flowNodeEdges (flows.filterMap (s.checkEdge node side)) := by
    intro d hd
    obtain ⟨flow, -, hfound⟩ := List.mem_filterMap.mp hd
    unfold checkEdge at hfound
    cases hflow : s.sequenceFlow? flow with
    | none => simp [hflow] at hfound
    | some f =>
      rw [hflow] at hfound
      simp only [Option.ite_none_left_eq_some] at hfound
      cases hfound.2
      exact ⟨rfl, rfl⟩
  exact (side _ _).append (side _ _)

theorem checkContainment_ofRule (f : SequenceFlow) (c : Container) :
    OfRule .sequenceFlowContainment (s.checkContainment f c) := by
  have theEnd (role : String) (id : Id) :
      OfRule .sequenceFlowContainment (s.checkEnd f c role id) := by
    unfold checkEnd
    split
    · simp [OfRule, Rule.severity]
    · exact .nil _
  exact (theEnd _ _).append (theEnd _ _)

theorem checkDefaultFlow_ofRule (node : Id) (flow : Option (RefTo .sequenceFlow)) :
    OfRule .defaultFlow (s.checkDefaultFlow node flow) := by
  unfold checkDefaultFlow
  split
  · exact .nil _
  · split
    · exact .nil _
    · simp only
      split <;> simp [OfRule, Rule.severity]

/-- What the checks on a flow element find is of rules that look at flow elements. -/
theorem checkFlowElement_others {rule : Rule} (hrule : rule.onFlowElements = false)
    (o : ValidationOptions) (executable : Bool) (e : FlowElement) (c : Container) :
    OfOthers rule (s.checkFlowElement o executable e c) := by
  have other {r : Rule} {found : List Diagnostic} (h : OfRule r found)
      (hr : r.onFlowElements = true) : OfOthers rule (o.check r found) := by
    refine (h.check o).others ?_
    rintro rfl
    cases hr.symm.trans hrule
  unfold checkFlowElement
  refine .append ?_ ?_
  · cases e.edges? with
    | none => exact .nil _
    | some edges => exact other (s.checkEdges_ofRule _ _) rfl
  · cases e with
    | gateway g =>
      refine .append (.append ?_ ?_) (other (s.checkDefaultFlow_ofRule _ _) rfl)
      · exact other (checkGatewayDegree_ofRule g c) rfl
      · exact other (checkMixedGateway_ofRule g c) rfl
    | event e => exact .nil _
    | sequenceFlow f =>
      refine .append ?_ ?_
      · exact other (s.checkContainment_ofRule f c) rfl
      · exact other (checkImmediacy_ofRule executable f) rfl
    | _ => exact other (s.checkDefaultFlow_ofRule _ _) rfl

end Scope

/-! ## The walk -/

/-- The element whose references are met. -/
def Visit.element? : Visit → Option Element
  | references e => some e
  | _ => none

theorem Visit.eq_references {v : Visit} {e : Element} (h : v.element? = some e) :
    v = .references e := by
  cases v with
  | references e =>
    cases h
    rfl
  | _ => cases h

theorem Placed.filterMap_encounters (p : Placed) :
    p.encounters.filterMap Visit.element? = [p.element] := by
  have contents (c : Container) : c.visits.filterMap Visit.element? = [] := by
    rw [Container.visits, List.filterMap_map]
    exact List.filterMap_eq_nil_iff.mpr fun _ _ => rfl
  obtain ⟨owner, e⟩ := p
  rw [encounters]
  cases e with
  | root r =>
    cases r with
    | process p => exact congrArg (_ :: ·) (contents p.container)
    | _ => rfl
  | flowElement f =>
    cases f with
    | subProcess a t es ls as => exact congrArg (_ :: ·) (contents ⟨es, ls⟩)
    | _ => rfl
  | _ => rfl

namespace Scope

variable {s : Scope} {o : ValidationOptions}

/-- **The references of every element of the ownership tree are met once**, in the order of the
tree. -/
theorem filterMap_visits (s : Scope) :
    s.visits.filterMap Visit.element? = s.placed.map Placed.element := by
  rw [visits_eq, List.filterMap_flatMap]
  simp only [Placed.filterMap_encounters]
  exact List.map_eq_flatMap.symm

/-- What is met apart from references adds findings of other rules. -/
theorem exists_found_meet (pass : Pass) {v : Visit} (hv : v.element? = none) :
    ∃ new, OfOthers .referenceResolution new ∧ (s.meet o pass v).found = pass.found ++ new := by
  cases v with
  | process p => exact ⟨_, ((checkPublicProcess_ofRule p).check o).others nofun, rfl⟩
  | collaboration c => exact ⟨_, ((checkGlobalConversation_ofRule c).check o).others nofun, rfl⟩
  | link l => exact ⟨_, ((s.checkLink_ofRule l).check o).others nofun, rfl⟩
  | references e => cases hv
  | container e c => exact ⟨[], List.forall_mem_nil _, (List.append_nil _).symm⟩
  | flowElement e c => exact ⟨_, s.checkFlowElement_others rfl o _ e c, rfl⟩

/-- A step of the walk adds no finding that is more or less severe than its rule. -/
theorem severity_of_mem_meet {pass : Pass} {v : Visit}
    (h : ∀ d ∈ pass.found, d.severity = d.rule.severity) :
    ∀ d ∈ (s.meet o pass v).found, d.severity = d.rule.severity := by
  cases he : v.element? with
  | some e =>
    cases Visit.eq_references he
    refine List.forall_mem_append.mpr ⟨h, fun d hd => ?_⟩
    obtain ⟨hrule, hseverity⟩ := (s.checkReferences_ofRule e).check o d hd
    rw [hseverity, hrule]
  | none =>
    obtain ⟨new, hnew, hfound⟩ := exists_found_meet (s := s) (o := o) pass he
    rw [hfound]
    exact List.forall_mem_append.mpr ⟨h, fun d hd => (hnew d hd).2⟩

theorem severity_of_mem_found (s : Scope) (o : ValidationOptions) :
    ∀ d ∈ (s.visits.foldl (s.meet o) .start).found, d.severity = d.rule.severity := by
  suffices hall : ∀ (vs : List Visit) (pass : Pass),
      (∀ d ∈ pass.found, d.severity = d.rule.severity) →
        ∀ d ∈ (vs.foldl (s.meet o) pass).found, d.severity = d.rule.severity from
    hall _ _ (List.forall_mem_nil _)
  intro vs
  induction vs with
  | nil => exact fun _ h => h
  | cons v vs ih => exact fun pass h => ih _ (severity_of_mem_meet h)

/-- What a walk finds for reference resolution. -/
theorem filter_found (s : Scope) (o : ValidationOptions) (vs : List Visit) (pass : Pass) :
    (vs.foldl (s.meet o) pass).found.filter (·.rule = .referenceResolution) =
      pass.found.filter (·.rule = .referenceResolution) ++
        (vs.filterMap Visit.element?).flatMap
          fun e => o.check .referenceResolution (s.checkReferences e) := by
  induction vs generalizing pass with
  | nil => exact (List.append_nil _).symm
  | cons v vs ih =>
    rw [List.foldl_cons, ih]
    cases he : v.element? with
    | some e =>
      have hfound : (s.meet o pass v).found =
          pass.found ++ o.check .referenceResolution (s.checkReferences e) := by
        rw [Visit.eq_references he]
        rfl
      rw [List.filterMap_cons_some he, hfound, List.filter_append,
        ((s.checkReferences_ofRule e).check o).filter_eq, if_pos rfl, List.flatMap_cons,
        List.append_assoc]
    | none =>
      obtain ⟨new, hnew, hfound⟩ := exists_found_meet (s := s) (o := o) pass he
      rw [List.filterMap_cons_none he, hfound, List.filter_append, hnew.filter_eq, List.append_nil]

end Scope

/-- Sorting keeps the order within a rule. -/
theorem Report.byRule_sorted {found : List Diagnostic}
    (h : ∀ d ∈ found, d.severity = d.rule.severity) (rule : Rule) :
    (sorted found).byRule rule = found.filter (·.rule = rule) := by
  -- what is of the rule stands in one half, all of it
  have half (severity : Severity) : (found.filter (·.severity = severity)).filter (·.rule = rule) =
      if rule.severity = severity then found.filter (·.rule = rule) else [] := by
    rw [List.filter_filter]
    split
    · rename_i heq
      refine List.filter_congr fun d hd => ?_
      by_cases hrule : d.rule = rule
      · simp [h d hd, hrule, heq]
      · simp [hrule]
    · rename_i hne
      refine List.filter_eq_nil_iff.mpr fun d hd => ?_
      by_cases hrule : d.rule = rule
      · simp [h d hd, hrule, hne]
      · simp [hrule]
  rw [byRule, sorted, List.filter_append, errors, warnings, half, half]
  cases rule.severity <;> simp

namespace Scope

variable {s : Scope} {o : ValidationOptions}

/-- **What reference resolution reports**: at each element of the ownership tree what the check of
its references finds, in the order of the tree. -/
theorem byRule_references (s : Scope) (ho : o.isEnabled .referenceResolution = true) :
    (s.validate o).byRule .referenceResolution =
      s.placed.flatMap fun p => s.checkReferences p.element := by
  rw [validate, Report.byRule_sorted (s.severity_of_mem_found o), filter_found, filterMap_visits,
    List.flatMap_map]
  simp only [ValidationOptions.check, ho, if_true]
  rfl

end Scope

end BpmnModel
