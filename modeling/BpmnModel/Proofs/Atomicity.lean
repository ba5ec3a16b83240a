import BpmnModel.Proofs.Editing

/-!
# Edits that are refused, and edits that are not

* `Change.addition?` — the element that an edit brings in, with the owner it gets.
* `Change.perform_cases` — an edit leaves the tree alone, adds one element or takes one out.
* `Reachable.agrees` — whatever was edited, refused or not, tree and registry agree.
* `Change.all_or_nothing` — a refused edit changes nothing, and an addition that is not refused
  leaves its element both registered and stored.
-/

namespace BpmnModel

/-- The element that an edit brings in, with the owner it gets. -/
def Change.addition? : Change → Option (Option Id × Element)
  | addRoot r => some (none, .root r)
  | addRelationship r => some (none, .relationship r)
  | addFlowElement container e => some (some container, .flowElement e)
  | addLaneSet container laneSet => some (some container, .laneSet laneSet)
  | addOperation interface o => some (some interface, .operation o)
  | addParticipant collaboration p => some (some collaboration, .participant p)
  | addMessageFlow collaboration f => some (some collaboration, .messageFlow f)
  | addConversation collaboration n => some (some collaboration, .conversationNode n)
  | addLink collaboration l => some (some collaboration, .conversationLink l)
  | describe .. | setField .. | addImport _ | addExtension _ | removeRoot _ | removeFlowElement _ =>
    none

namespace Scope

variable {s t : Scope}

theorem AddsOrRefuses.map_added {owner : Option Id} {e : Element} {add : Edit Id}
    (h : s.AddsOrRefuses owner e (add s)) :
    (∃ refusal, (Outcome.added <$> add) s = .error refusal s) ∨
      ∃ t, (Outcome.added <$> add) s = .ok (.added e.id) t ∧ s.Adds owner e t := by
  rcases h with ⟨refusal, hadd⟩ | ⟨t, hadd, hadds⟩
  · refine .inl ⟨refusal, ?_⟩
    show EStateM.map Outcome.added add s = _
    rw [EStateM.map, hadd]
  · refine .inr ⟨t, ?_, hadds⟩
    show EStateM.map Outcome.added add s = _
    rw [EStateM.map, hadd]

/-- What an edit may do to the tree: nothing, one more element, or one less. -/
inductive Effect (s : Scope) (c : Change) : EStateM.Result ModelError Scope Outcome → Prop where
  | refused (refusal : ModelError) : Effect s c (.error refusal s)
  | kept {t : Scope} (none : c.addition? = none) (topLevel : t.topLevel = s.topLevel)
      (registry : t.registry = s.registry) (id : t.id = s.id) : Effect s c (.ok .done t)
  | absent {id : Id} (removal : c = .removeRoot id) (none : s.root? id = none) :
      Effect s c (.ok (.removed .none) s)
  | added {t : Scope} {owner : Option Id} {e : Element} (some : c.addition? = some (owner, e))
      (adds : s.Adds owner e t) : Effect s c (.ok (.added e.id) t)
  | removed {t : Scope} {owner : Option Id} {e : Element} (none : c.addition? = none)
      (removes : s.Removes owner e t) : Effect s c (.ok (.removed (some e)) t)

theorem Effect.of_adds {c : Change} {owner : Option Id} {e : Element} {add : Edit Id}
    (hc : c.addition? = some (owner, e)) (h : s.AddsOrRefuses owner e (add s)) :
    s.Effect c ((Outcome.added <$> add) s) := by
  rcases h.map_added with ⟨refusal, hadd⟩ | ⟨t, hadd, hadds⟩
  · rw [hadd]
    exact .refused refusal
  · rw [hadd]
    exact .added hc hadds

end Scope

open Scope

variable {s t : Scope}

/-- **What one edit does to a scope whose registry agrees with its tree.** -/
theorem Change.perform_cases (h : s.Agrees) (c : Change) : s.Effect c (c.perform s) := by
  cases c with
  | describe documentation values => exact .kept rfl rfl rfl rfl
  | setField field value =>
    refine .kept rfl rfl rfl ?_
    cases field <;> rfl
  | addImport i => exact .kept rfl rfl rfl rfl
  | addExtension e => exact .kept rfl rfl rfl rfl
  | addRoot r => exact .of_adds rfl (addRoot_spec s r)
  | addRelationship r => exact .of_adds rfl (addRelationship_spec s r)
  | addFlowElement container e => exact .of_adds rfl (addFlowElement_spec h container e)
  | addLaneSet container laneSet => exact .of_adds rfl (addLaneSet_spec h container laneSet)
  | addOperation interface o => exact .of_adds rfl (addOperation_spec h interface o)
  | addParticipant collaboration p => exact .of_adds rfl (addParticipant_spec h collaboration p)
  | addMessageFlow collaboration f => exact .of_adds rfl (addMessageFlow_spec h collaboration f)
  | addConversation collaboration n => exact .of_adds rfl (addConversation_spec h collaboration n)
  | addLink collaboration l => exact .of_adds rfl (addLink_spec h collaboration l)
  | removeRoot id =>
    show s.Effect _ (EStateM.map (fun r : Option Root => Outcome.removed (r.map .root))
      (Scope.removeRoot id) s)
    rw [EStateM.map]
    rcases removeRoot_spec s id with ⟨hnone, hrun⟩ | ⟨r, t, -, hrun, hremoves, -⟩
    · rw [hrun]
      exact .absent rfl hnone
    · rw [hrun]
      exact .removed rfl hremoves
  | removeFlowElement id =>
    show s.Effect _ (EStateM.map (fun e => Outcome.removed (some (.flowElement e)))
      (Scope.removeFlowElement id) s)
    rw [EStateM.map]
    rcases removeFlowElement_spec h id with
      ⟨refusal, hrun⟩ | ⟨owner, path, c, e, c', -, -, hrun, hremoves⟩
    · rw [hrun]
      exact .refused refusal
    · rw [hrun]
      exact .removed rfl hremoves

theorem Change.agrees_after (h : s.Agrees) (c : Change) : (c.after s).Agrees := by
  have hcases := c.perform_cases h
  unfold Change.after
  generalize c.perform s = result at hcases
  cases hcases with
  | refused refusal => exact h
  | kept _ htop hreg hid =>
    refine h.keep hreg hid (List.Perm.of_eq ?_)
    rw [Scope.slots, Scope.slots, placed, placed, htop]
  | absent _ _ => exact h
  | added _ hadds => exact hadds.agrees h
  | removed _ hremoves => exact hremoves.agrees h

/-- **Tree and registry of every reachable scope agree.** -/
theorem Reachable.agrees (h : Reachable s) : s.Agrees := by
  induction h with
  | fresh id targetNamespace => exact Agrees.fresh id targetNamespace
  | after c _ _ _ _ ih => exact c.agrees_after ih

/-- **An edit is all or nothing.** A refused edit leaves the whole scope as it was, and so does the
removal of a root element that is not there. An addition that is not refused reports the identifier
of its element, which then is registered under its owner and stands there in the tree. -/
theorem Change.all_or_nothing (h : Reachable s) (c : Change) :
    (∀ refusal t, c.perform s = .error refusal t → t = s) ∧
      (∀ id t, c = .removeRoot id → c.perform s = .ok (.removed none) t → t = s) ∧
      ∀ owner e outcome t, c.addition? = some (owner, e) → c.perform s = .ok outcome t →
        outcome = .added e.id ∧ t.registry.slot? e.id = some ⟨e.kind, owner⟩ ∧
          (∀ p ∈ e.placed owner, t.registry.slot? p.id = some ⟨p.element.kind, p.owner⟩) ∧
          ∃ flows, ⟨owner, e.wired flows⟩ ∈ t.placed := by
  have hcases := c.perform_cases h.agrees
  generalize c.perform s = result at hcases
  refine ⟨?_, ?_, ?_⟩
  · rintro refusal t rfl
    cases hcases
    rfl
  · rintro id t - rfl
    cases hcases
    rfl
  · rintro owner e outcome t hadd rfl
    cases hcases with
    | kept hnone => rw [hnone] at hadd; cases hadd
    | absent hc => rw [hc] at hadd; cases hadd
    | removed hnone => rw [hnone] at hadd; cases hadd
    | added hsome hadds =>
      rw [hsome] at hadd
      cases hadd
      have hrec := (h.agrees.records.register hadds.registered).1
      have hslot : ∀ p ∈ e.placed owner, t.registry.slot? p.id = some ⟨p.element.kind, p.owner⟩ :=
        fun p hp => hrec.slot?_eq (List.mem_append_right _ hp)
      exact ⟨rfl, hslot _ (Element.mem_placed_self e owner), hslot, hadds.stored⟩

/-- A process cannot be added twice; a task can be added to it. -/
theorem Change.all_or_nothing_process :
    let s := (Change.addRoot (.process (.bare ⟨"p"⟩))).after (Scope.fresh ⟨"Defs"⟩ "urn:t")
    let task : FlowElement := .task (.bare ⟨"t"⟩) .manual
    (∃ refusal, (Change.addRoot (.process (.bare ⟨"p"⟩))).perform s = .error refusal s) ∧
      ∃ outcome t, (Change.addFlowElement ⟨"p"⟩ task).perform s = .ok outcome t ∧
        t.registry.slot? ⟨"t"⟩ = some ⟨.manualTask, some ⟨"p"⟩⟩ := by
  intro s task
  have hs : Reachable s :=
    .after _ ⟨[], [], nofun, rfl⟩ (by simp [Change.boundScope?]) (.fresh _ _)
  constructor
  · have hrefused : ∃ refusal t,
        (Change.addRoot (.process (.bare ⟨"p"⟩))).perform s = .error refusal t := ⟨_, _, rfl⟩
    obtain ⟨refusal, t, hrun⟩ := hrefused
    obtain ⟨hsame, -, -⟩ := all_or_nothing hs (.addRoot (.process (.bare ⟨"p"⟩)))
    rw [hsame refusal t hrun] at hrun
    exact ⟨refusal, hrun⟩
  · have hadded : ∃ outcome t,
        (Change.addFlowElement ⟨"p"⟩ task).perform s = .ok outcome t := ⟨_, _, rfl⟩
    obtain ⟨outcome, t, hrun⟩ := hadded
    obtain ⟨-, -, hadds⟩ := all_or_nothing hs (.addFlowElement ⟨"p"⟩ task)
    obtain ⟨-, hslot, -⟩ := hadds _ _ outcome t rfl hrun
    exact ⟨outcome, t, hrun, hslot⟩

end BpmnModel
