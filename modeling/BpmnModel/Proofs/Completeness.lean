import BpmnModel.Proofs.Steps

/-!
# Every reachable scope could be built anew

* `Scope.Complete` — the contents of every process are complete.
* `Reachable.complete` — whatever was edited, refused or not, a scope stays complete, so each of its
  containers is the assembly of its own contents.
-/

namespace BpmnModel

namespace Scope

variable {s t : Scope}

/-- Every root element could be built as it is. -/
def Complete (s : Scope) : Prop := ∀ r ∈ s.roots, r.Assembled

theorem Complete.of_roots (h : s.Complete) (hroots : ∀ r ∈ t.roots, r ∈ s.roots) : t.Complete :=
  fun r hr => h r (hroots r hr)

theorem Complete.replaceRoot (h : s.Complete) {new : Root} (hnew : new.Assembled) :
    (s.replaceRoot new).Complete := by
  intro r hr
  obtain ⟨q, hq, rfl⟩ := List.mem_map.mp hr
  split
  · exact hnew
  · exact h q hq

theorem Complete.containerAt? (h : s.Complete) {path : List Id} {c : Container}
    (hc : s.containerAt? path = some c) : c.Complete := by
  obtain ⟨top, rest, p, rfl, hp, hd⟩ := containerAt?_eq_some_iff.mp hc
  exact (Process.assembled_iff.mp (h _ (root?_mem hp).1)).descend? hd

theorem Complete.replaceContainer (h : s.Complete) (path : List Id) {new : Container}
    (hnew : new.Complete) : (s.replaceContainer path new).Complete := by
  unfold Scope.replaceContainer
  split
  · exact h
  · split
    · rename_i p hp
      have hp := Process.assembled_iff.mp (h _ (root?_mem hp).1)
      exact h.replaceRoot (Process.assembled_iff.mpr (hp.replaceAt hnew _))
    · exact h

end Scope

/-- A root element without contents can always be built. -/
theorem Root.assembled_of_plain {r : Root} (h : (Element.root r).container? = none) :
    r.Assembled := by
  cases r with
  | process p => cases h
  | _ => trivial

theorem Container.Edited.complete {c : Change} {k k' : Container} (h : k.Edited c k')
    (hk : k.Complete) (hc : c.Assembled) : k'.Complete := by
  cases h with
  | inserted change run =>
    subst change
    exact hk.insert hc run
  | removed run => exact hk.remove? run
  | extended laneSet => exact hk.pushLaneSet laneSet

open Scope

variable {s : Scope}

theorem Change.complete_after (h : s.Complete) (c : Change) (hc : c.Assembled) :
    (c.after s).Complete := by
  cases c.reshapes s with
  | kept roots => exact h.of_roots fun r hr => roots ▸ hr
  | added change roots =>
    subst change
    intro q hq
    rw [roots] at hq
    rcases List.mem_append.mp hq with hq | hq
    · exact h q hq
    · rw [List.mem_singleton.mp hq]
      exact hc
  | removed roots => exact h.of_roots fun q hq => List.mem_of_mem_eraseP (roots ▸ hq)
  | replaced plain roots =>
    exact (h.replaceRoot (Root.assembled_of_plain plain)).of_roots fun q hq => roots ▸ hq
  | edited found edit roots =>
    have hnew := edit.complete (h.containerAt? found) hc
    exact (h.replaceContainer _ hnew).of_roots fun q hq => roots ▸ hq

/-- **Every root element of a reachable scope could be built as it is.** -/
theorem Reachable.complete (h : Reachable s) : s.Complete := by
  induction h with
  | fresh id targetNamespace => exact nofun
  | after c assembled _ _ _ ih => exact c.complete_after ih assembled

/-- So every container of a reachable scope, at any depth, is wired. -/
theorem Reachable.wired (h : Reachable s) {o : Option Id} {x : Element} (hx : ⟨o, x⟩ ∈ s.placed)
    {c : Container} (hc : x.container? = some c) : c.Wired := by
  obtain ⟨path, hpath⟩ := exists_ownerPath hx
  exact (h.complete.containerAt? (h.agrees.containerAt?_eq hpath hc)).wired

end BpmnModel
