import BpmnModel.Proofs.Atomicity
import BpmnModel.Proofs.Wiring

/-!
# The parts of a scope under one edit

* `Scope.Leaves` — what holds of the scope that an operation leaves, refused or not.
* `Scope.Reshapes` — the ways in which an edit changes the root elements; `Change.reshapes` says that
  there are no others.
* `Change.imports_after` — only the edit that appends an import changes the imports.
* `Reachable.of_import` — the scope that an import of a reachable scope is bound to is reachable.
-/

namespace BpmnModel

/-- What an edit does to the contents of one process or sub-process. -/
inductive Container.Edited (c : Change) (k : Container) : Container → Prop where
  | inserted {owner : Id} {e : FlowElement} {k' : Container} (change : c = .addFlowElement owner e)
      (run : k.insert e = .ok k') : Edited c k k'
  | removed {id : Id} {e : FlowElement} {k' : Container} (run : k.remove? id = some (e, k')) :
      Edited c k k'
  | extended (laneSet : LaneSet) : Edited c k (k.pushLaneSet laneSet)

namespace Scope

variable {s t : Scope}

/-! ## Root elements -/

/-- What an edit does to the root elements: nothing, one more, one less, another one without contents
in the place of one, or a change in the contents of one. -/
inductive Reshapes (s : Scope) (c : Change) (t : Scope) : Prop where
  | kept (roots : t.roots = s.roots)
  | added {r : Root} (change : c = .addRoot r) (roots : t.roots = s.roots ++ [r])
  | removed {id : Id} (roots : t.roots = s.roots.eraseP (·.id = id))
  | replaced {new : Root} (plain : (Element.root new).container? = none)
      (roots : t.roots = (s.replaceRoot new).roots)
  | edited {path : List Id} {k k' : Container} (found : s.containerAt? path = some k)
      (edit : k.Edited c k') (roots : t.roots = (s.replaceContainer path k').roots)

/-- The scope after an edit, also after one that was refused. -/
def Leaves {α : Type} (edit : Edit α) (s : Scope) (P : Scope → Prop) : Prop :=
  match edit s with
  | .ok _ t => P t
  | .error _ t => P t

theorem Leaves.map {α β : Type} {edit : Edit α} {P : Scope → Prop} (f : α → β)
    (h : Leaves edit s P) : Leaves (f <$> edit) s P := by
  unfold Leaves at h ⊢
  show match EStateM.map f edit s with
    | .ok _ t => P t
    | .error _ t => P t
  rw [EStateM.map]
  cases hr : edit s <;> rw [hr] at h <;> exact h

/-- Looking for a container changes nothing. -/
theorem containerPath_keeps (s : Scope) (container : Id) :
    (∃ refusal, containerPath container s = .error refusal s) ∨
      ∃ path, containerPath container s = .ok path s := by
  rw [containerPath_run]
  cases s.objection? container .anyContainer with
  | some refusal => exact .inl ⟨refusal, rfl⟩
  | none =>
    cases s.containerAt? (s.registry.path container) with
    | none => exact .inl ⟨_, rfl⟩
    | some k => exact .inr ⟨_, rfl⟩

theorem addRoot_leaves (s : Scope) (r : Root) : Leaves (addRoot r) s (s.Reshapes (.addRoot r)) := by
  rw [Leaves]
  unfold addRoot
  simp only [bind, EStateM.bind, registerTree]
  cases s.registry.register (.root r) none with
  | error refusal => exact .kept rfl
  | ok registry => exact .added rfl rfl

theorem addRelationship_leaves (s : Scope) (r : Relationship) :
    Leaves (addRelationship r) s (s.Reshapes (.addRelationship r)) := by
  rw [Leaves]
  unfold addRelationship
  simp only [bind, EStateM.bind, registerTree]
  cases s.registry.register (.relationship r) none with
  | error refusal => exact .kept rfl
  | ok registry => exact .kept rfl

theorem removeRoot_leaves (s : Scope) (id : Id) :
    Leaves (removeRoot id) s (s.Reshapes (.removeRoot id)) := by
  rw [Leaves]
  rcases removeRoot_spec s id with ⟨-, hrun⟩ | ⟨r, t, -, hrun, -, hroots⟩
  · rw [hrun]
    exact .kept rfl
  · rw [hrun]
    exact .removed hroots

theorem addFlowElement_leaves (s : Scope) (container : Id) (e : FlowElement) :
    Leaves (addFlowElement container e) s (s.Reshapes (.addFlowElement container e)) := by
  rw [Leaves, addFlowElement_run]
  obtain ⟨refusal, hp⟩ | ⟨path, hp⟩ := containerPath_keeps s container
  · rw [hp]
    exact .kept rfl
  · rw [hp]
    simp only
    cases s.registry.register (.flowElement e) (some container) with
    | error refusal => exact .kept rfl
    | ok registry =>
      simp only
      cases hat : s.containerAt? path with
      | none => exact .kept rfl
      | some k =>
        simp only
        cases hins : k.insert e with
        | error refusal => exact .kept rfl
        | ok k' => exact .edited hat (.inserted rfl hins) rfl

theorem addLaneSet_leaves (s : Scope) (container : Id) (laneSet : LaneSet) :
    Leaves (addLaneSet container laneSet) s (s.Reshapes (.addLaneSet container laneSet)) := by
  rw [Leaves, addLaneSet_run]
  obtain ⟨refusal, hp⟩ | ⟨path, hp⟩ := containerPath_keeps s container
  · rw [hp]
    exact .kept rfl
  · rw [hp]
    simp only
    cases s.registry.register (.laneSet laneSet) (some container) with
    | error refusal => exact .kept rfl
    | ok registry =>
      simp only
      cases hat : s.containerAt? path with
      | none => exact .kept rfl
      | some k => exact .edited hat (.extended laneSet) rfl

theorem removeFlowElement_leaves (s : Scope) (id : Id) :
    Leaves (removeFlowElement id) s (s.Reshapes (.removeFlowElement id)) := by
  rw [Leaves, removeFlowElement_run]
  cases (s.registry.slot? id).bind Slot.owner with
  | none => exact .kept rfl
  | some owner =>
    simp only
    cases hrem : (s.containerAt? (s.registry.path owner)).bind (·.remove? id) with
    | none => exact .kept rfl
    | some result =>
      obtain ⟨e, k'⟩ := result
      obtain ⟨k, hat, hremove⟩ := Option.bind_eq_some_iff.mp hrem
      exact .edited hat (.removed hremove) rfl

theorem addOperation_leaves (s : Scope) (interface : Id) (o : Operation) :
    Leaves (addOperation interface o) s (s.Reshapes (.addOperation interface o)) := by
  rw [Leaves, addOperation_run]
  cases s.objection? interface (.kind .interface) with
  | some refusal => exact .kept rfl
  | none =>
    simp only
    cases s.registry.register (.operation o) (some interface) with
    | error refusal => exact .kept rfl
    | ok registry =>
      simp only
      split
      · rename_i hrun
        split at hrun <;> cases hrun
        · exact .replaced rfl rfl
        · exact .kept rfl
      · rename_i hrun
        split at hrun <;> cases hrun

/-- The four operations on collaborations do the same to the root elements. -/
theorem addToCollaboration_leaves (s : Scope) (collaboration : Id) (child : Element)
    (store : Collaboration → Collaboration) (c : Change) :
    Leaves (addToCollaboration collaboration child store) s (s.Reshapes c) := by
  rw [Leaves, addToCollaboration_run]
  cases s.objection? collaboration .anyCollaboration with
  | some refusal => exact .kept rfl
  | none =>
    simp only
    cases s.registry.register child (some collaboration) with
    | error refusal => exact .kept rfl
    | ok registry =>
      simp only
      split
      · rename_i hrun
        split at hrun <;> cases hrun
        exact .replaced rfl rfl
      · rename_i hrun
        split at hrun <;> cases hrun
        exact .kept rfl

end Scope

open Scope

variable {s : Scope}

/-- What holds of everything that an edit may leave holds of the scope after the edit. -/
theorem Change.after_of_leaves {c : Change} {P : Scope → Prop} (h : Leaves c.perform s P) :
    P (c.after s) := by
  unfold Leaves at h
  unfold Change.after
  cases hr : c.perform s <;> rw [hr] at h <;> exact h

/-- **There are five things that an edit may do to the root elements.** -/
theorem Change.reshapes (s : Scope) (c : Change) : s.Reshapes c (c.after s) := by
  refine after_of_leaves ?_
  cases c with
  | describe documentation values => exact .kept rfl
  | setField field value => exact .kept rfl
  | addImport i => exact .kept rfl
  | addExtension e => exact .kept rfl
  | addRoot r => exact (addRoot_leaves s r).map _
  | removeRoot id => exact (removeRoot_leaves s id).map _
  | addRelationship r => exact (addRelationship_leaves s r).map _
  | addFlowElement owner e => exact (addFlowElement_leaves s owner e).map _
  | removeFlowElement id => exact (removeFlowElement_leaves s id).map _
  | addLaneSet owner laneSet => exact (addLaneSet_leaves s owner laneSet).map _
  | addOperation interface o => exact (addOperation_leaves s interface o).map _
  | addParticipant owner p => exact (addToCollaboration_leaves s owner _ _ _).map _
  | addMessageFlow owner f => exact (addToCollaboration_leaves s owner _ _ _).map _
  | addConversation owner n => exact (addToCollaboration_leaves s owner _ _ _).map _
  | addLink owner l => exact (addToCollaboration_leaves s owner _ _ _).map _

/-! ## Imports -/

/-- An operation that adds an element leaves the imports alone. -/
theorem Scope.AddsOrRefuses.imports {owner : Option Id} {e : Element} {add : Edit Id}
    (h : s.AddsOrRefuses owner e (add s)) :
    Leaves (Outcome.added <$> add) s fun t => t.imports = s.imports := by
  refine Leaves.map _ ?_
  unfold Leaves
  rcases h with ⟨refusal, hrun⟩ | ⟨t, hrun, ht⟩
  · rw [hrun]
  · rw [hrun]
    exact ht.imports

/-- **An edit leaves the imports as they are, or appends one.** -/
theorem Change.imports_after (h : s.Agrees) (c : Change) :
    (c.after s).imports = s.imports ∨
      ∃ i, c = .addImport i ∧ (c.after s).imports = s.imports ++ [i] := by
  have hleaves : (∃ i, c = .addImport i) ∨ Leaves c.perform s fun t => t.imports = s.imports := by
    cases c with
    | describe documentation values => exact .inr rfl
    | setField field value => exact .inr rfl
    | addImport i => exact .inl ⟨i, rfl⟩
    | addExtension e => exact .inr rfl
    | addRoot r => exact .inr (addRoot_spec s r).imports
    | addRelationship r => exact .inr (addRelationship_spec s r).imports
    | addFlowElement owner e => exact .inr (addFlowElement_spec h owner e).imports
    | addLaneSet owner laneSet => exact .inr (addLaneSet_spec h owner laneSet).imports
    | addOperation interface o => exact .inr (addOperation_spec h interface o).imports
    | addParticipant owner p => exact .inr (addParticipant_spec h owner p).imports
    | addMessageFlow owner f => exact .inr (addMessageFlow_spec h owner f).imports
    | addConversation owner n => exact .inr (addConversation_spec h owner n).imports
    | addLink owner l => exact .inr (addLink_spec h owner l).imports
    | removeRoot id =>
      refine .inr (Leaves.map _ ?_)
      unfold Leaves
      rcases removeRoot_spec s id with ⟨-, hrun⟩ | ⟨r, t, -, hrun, hremoves, -⟩
      · rw [hrun]
      · rw [hrun]
        exact hremoves.imports
    | removeFlowElement id =>
      refine .inr (Leaves.map _ ?_)
      unfold Leaves
      rcases removeFlowElement_spec h id with
        ⟨refusal, hrun⟩ | ⟨owner, path, k, e, k', -, -, hrun, hremoves⟩
      · rw [hrun]
      · rw [hrun]
        exact hremoves.imports
  rcases hleaves with ⟨i, rfl⟩ | hleaves
  · exact .inr ⟨i, rfl, rfl⟩
  · exact .inl (after_of_leaves hleaves)

/-- **The scopes that a reachable scope imports are reachable.** -/
theorem Reachable.of_import (h : Reachable s) {i : Import} (hi : i ∈ s.imports) {t : Scope}
    (ht : i.scope? = some t) : Reachable t := by
  induction h with
  | fresh id targetNamespace => cases hi
  | @after c s assembled bound hs _ ih =>
    rcases c.imports_after hs.agrees with himports | ⟨j, rfl, himports⟩
    · exact ih (himports ▸ hi)
    · rw [himports] at hi
      rcases List.mem_append.mp hi with hi | hi
      · exact ih hi
      · rw [List.mem_singleton.mp hi] at ht
        exact bound t ht

end BpmnModel
