import BpmnModel.Proofs.Findings

/-!
# Options select among the findings

A walk takes the same steps under all options.  What a step finds depends on the thing that is met
and on whether the last process met is executable; options take the findings of some rules out.

* `Scope.findings`, `Scope.walk` — what one step finds, and the steps of a walk.
* `Scope.found_eq` — what a walk finds is what its steps find, in order.
* `Scope.findings_filter` — options filter the findings of each step.
* `Scope.options_filter` — hence they filter the report, and what is left keeps its order.
-/

namespace BpmnModel

namespace ValidationOptions

/-- The options under which every rule runs. -/
def everything : ValidationOptions := ⟨.warn, []⟩

theorem isEnabled_everything (rule : Rule) : everything.isEnabled rule = true := by
  cases rule <;> rfl

@[simp]
theorem check_everything (rule : Rule) (found : List Diagnostic) :
    everything.check rule found = found :=
  if_pos (isEnabled_everything rule)

theorem isEnabled_eq_true_iff (o : ValidationOptions) (rule : Rule) :
    o.isEnabled rule = true ↔
      rule ∉ o.disabledRules ∧ (rule = .mixedGateway → o.mixedGateways = .warn) := by
  obtain ⟨policy, rules⟩ := o
  cases policy <;> simp [isEnabled, and_comm]

/-- A rule that is switched off does not run; the others are not concerned. -/
theorem isEnabled_disable (o : ValidationOptions) (rule other : Rule) :
    (o.disable rule).isEnabled other = (o.isEnabled other && decide (other ≠ rule)) := by
  unfold disable
  split
  · rename_i h
    by_cases heq : other = rule
    · subst heq
      have hmem : other ∈ o.disabledRules := List.contains_iff_mem.mp h
      simp [isEnabled, hmem]
    · simp [heq]
  · simp [isEnabled, Bool.and_assoc]

/-- Only which rules are listed matters, not how often or in which order. -/
theorem isEnabled_congr {o : ValidationOptions} {rules : List Rule}
    (h : ∀ rule, rule ∈ rules ↔ rule ∈ o.disabledRules) :
    isEnabled { o with disabledRules := rules } = o.isEnabled := by
  funext rule
  rw [Bool.eq_iff_iff, isEnabled_eq_true_iff, isEnabled_eq_true_iff, h]

end ValidationOptions

/-- Findings of one rule stay or go together. -/
theorem OfRule.filter_enabled {rule : Rule} {found : List Diagnostic} (h : OfRule rule found)
    (o : ValidationOptions) : found.filter (o.isEnabled ·.rule) = o.check rule found := by
  unfold ValidationOptions.check
  split
  · rename_i ho
    exact List.filter_eq_self.mpr fun d hd => by rw [(h d hd).1, ho]
  · rename_i ho
    exact List.filter_eq_nil_iff.mpr fun d hd => by rwa [(h d hd).1]

/-! ## The steps of a walk -/

/-- Whether the last process met is executable, once this was met too. -/
def Visit.executable (before : Bool) : Visit → Bool
  | process p => p.isExecutable == some true
  | _ => before

/-- Things met one after the other, each with whether the last process met before is executable. -/
def Visit.inTurn (executable : Bool) : List Visit → List (Bool × Visit)
  | [] => []
  | v :: vs => (executable, v) :: inTurn (v.executable executable) vs

namespace Scope

/-- What is found when this is met. -/
def findings (s : Scope) (o : ValidationOptions) (executable : Bool) (v : Visit) :
    List Diagnostic :=
  (s.meet o ⟨executable, []⟩ v).found

/-- The steps of the walk over a scope. -/
def walk (s : Scope) : List (Bool × Visit) := Visit.inTurn false s.visits

variable (s : Scope) (o : ValidationOptions)

theorem meet_eq (pass : Pass) (v : Visit) :
    s.meet o pass v =
      ⟨v.executable pass.executable, pass.found ++ s.findings o pass.executable v⟩ := by
  cases v <;> simp [meet, findings, Pass.report, Visit.executable]

theorem found_foldl (vs : List Visit) (pass : Pass) :
    (vs.foldl (s.meet o) pass).found =
      pass.found ++ (Visit.inTurn pass.executable vs).flatMap fun x => s.findings o x.1 x.2 := by
  induction vs generalizing pass with
  | nil => exact (List.append_nil _).symm
  | cons v vs ih =>
    rw [List.foldl_cons, ih, meet_eq, Visit.inTurn, List.flatMap_cons, List.append_assoc]

/-- **What a walk finds is what its steps find, in order.** -/
theorem found_eq :
    (s.visits.foldl (s.meet o) .start).found = s.walk.flatMap fun x => s.findings o x.1 x.2 :=
  s.found_foldl o s.visits .start

/-! ## What options take out -/

theorem checkFlowElement_filter (executable : Bool) (e : FlowElement) (c : Container) :
    (s.checkFlowElement .everything executable e c).filter (o.isEnabled ·.rule) =
      s.checkFlowElement o executable e c := by
  unfold checkFlowElement
  rw [List.filter_append]
  congr 1
  · cases e.edges? with
    | none => rfl
    | some edges => simp only [ValidationOptions.check_everything,
        (s.checkEdges_ofRule _ _).filter_enabled]
  · have default (node : Id) (flow : Option (RefTo .sequenceFlow)) :=
      (s.checkDefaultFlow_ofRule node flow).filter_enabled o
    cases e with
    | gateway g =>
      simp only [ValidationOptions.check_everything, List.filter_append, default,
        (checkGatewayDegree_ofRule g c).filter_enabled, (checkMixedGateway_ofRule g c).filter_enabled]
    | event e => rfl
    | sequenceFlow f =>
      simp only [ValidationOptions.check_everything, List.filter_append,
        (s.checkContainment_ofRule f c).filter_enabled,
        (checkImmediacy_ofRule executable f).filter_enabled]
    | _ => simp only [ValidationOptions.check_everything, default]

/-- **Options filter the findings of each step.** -/
theorem findings_filter (executable : Bool) (v : Visit) :
    (s.findings .everything executable v).filter (o.isEnabled ·.rule) =
      s.findings o executable v := by
  simp only [findings]
  cases v with
  | process p =>
    simp [meet, Pass.report, (checkPublicProcess_ofRule p).filter_enabled]
  | collaboration c =>
    simp [meet, Pass.report, (checkGlobalConversation_ofRule c).filter_enabled]
  | link l => simp [meet, Pass.report, (s.checkLink_ofRule l).filter_enabled]
  | references e => simp [meet, Pass.report, (s.checkReferences_ofRule e).filter_enabled]
  | container e c => rfl
  | flowElement e c => simp [meet, Pass.report, checkFlowElement_filter]

end Scope

theorem Report.filter_sorted (found : List Diagnostic) (keep : Diagnostic → Bool) :
    (sorted found).diagnostics.filter keep = (sorted (found.filter keep)).diagnostics := by
  simp only [sorted, errors, warnings, List.filter_append, List.filter_filter, Bool.and_comm]

namespace Scope

variable (s : Scope) (o : ValidationOptions)

theorem diagnostics_validate :
    (s.validate o).diagnostics =
      (Report.sorted (s.walk.flatMap fun x => s.findings o x.1 x.2)).diagnostics := by
  rw [validate, found_eq]

theorem diagnostics_filter :
    (s.validate o).diagnostics =
      (s.validate .everything).diagnostics.filter (o.isEnabled ·.rule) := by
  rw [diagnostics_validate, diagnostics_validate, Report.filter_sorted, List.filter_flatMap]
  simp only [findings_filter]

variable {o} in
/-- A rule that does not run reports nothing. -/
theorem byRule_of_not_enabled {rule : Rule} (ho : o.isEnabled rule = false) :
    (s.validate o).byRule rule = [] := by
  rw [Report.byRule, diagnostics_filter, List.filter_filter]
  refine List.filter_eq_nil_iff.mpr fun d _ h => ?_
  simp only [Bool.and_eq_true, decide_eq_true_eq] at h
  rw [h.1, ho] at h
  cases h.2

/-- **Options only filter.**  The report under any options is the report of all rules without the
findings of those that do not run.  So switching a rule off takes out its own findings and touches
no others, and how often or in which order rules are listed as switched off does not matter.  In
every report the errors found along the walk stand first, then the warnings found along it. -/
theorem options_filter :
    (∀ rule, o.isEnabled rule = true ↔
        rule ∉ o.disabledRules ∧ (rule = .mixedGateway → o.mixedGateways = .warn)) ∧
      (s.validate o).diagnostics =
        (s.validate ⟨.warn, []⟩).diagnostics.filter (o.isEnabled ·.rule) ∧
      (∀ rule, (s.validate (o.disable rule)).diagnostics =
        (s.validate o).diagnostics.filter (·.rule ≠ rule)) ∧
      (∀ rules, (∀ rule, rule ∈ rules ↔ rule ∈ o.disabledRules) →
        s.validate { o with disabledRules := rules } = s.validate o) ∧
      ∃ found : List Diagnostic, found = (s.walk.flatMap fun x => s.findings o x.1 x.2) ∧
        (s.validate o).diagnostics =
          found.filter (·.severity = .error) ++ found.filter (·.severity = .warning) := by
  refine ⟨o.isEnabled_eq_true_iff, s.diagnostics_filter o, ?_, ?_, _, rfl, s.diagnostics_validate o⟩
  · intro rule
    rw [diagnostics_filter, s.diagnostics_filter o, List.filter_filter]
    refine List.filter_congr fun d _ => ?_
    rw [ValidationOptions.isEnabled_disable, Bool.and_comm]
  · intro rules h
    have heq : (s.validate { o with disabledRules := rules }).diagnostics =
        (s.validate o).diagnostics := by
      rw [diagnostics_filter, s.diagnostics_filter o, ValidationOptions.isEnabled_congr h]
    exact congrArg Report.mk heq

end Scope

end BpmnModel
