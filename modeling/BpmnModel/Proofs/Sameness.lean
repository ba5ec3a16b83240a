import BpmnModel.Proofs.Completeness

/-!
# Scopes that count as equal

Flow elements and root elements are compared with their namesakes, so a scope is the same as itself
only because identifiers are distinct where they are looked up.

* `Root.same_self` — for root elements that could be built.
* `Scope.same_of_eq` — scopes that differ in their registries only.
-/

namespace BpmnModel

/-! ## Conversation nodes -/

namespace ConversationNode

mutual

theorem same_self : ∀ n : ConversationNode, same n n = true
  | conversation b fs => by simp [same]
  | subConversation b fs ns => by simp [same, allSame_self ns]
  | callConversation b d as => by simp [same]

theorem allSame_self : ∀ ns : List ConversationNode, allSame ns ns = true
  | [] => rfl
  | n :: ns => by simp [allSame, same_self n, allSame_self ns]

end

end ConversationNode

/-! ## Flow elements -/

/-- Among things with distinct names each is found by its own. -/
theorem find?_eq_some_of_nodup {α : Type} {name : α → Id} {xs : List α} (hnd : (xs.map name).Nodup)
    {x : α} (hx : x ∈ xs) : xs.find? (fun y => name y = name x) = some x :=
  find?_eq_some_of_unique hx fun _ hy hid => List.inj_on_of_nodup_map hnd hy hx hid

namespace FlowElement

theorem eachIn_iff {es fs : List FlowElement} : eachIn es fs = true ↔
    ∀ e ∈ es, ∃ f, fs.find? (·.id = e.id) = some f ∧ same e f = true := by
  induction es with
  | nil => simp [eachIn]
  | cons e es ih =>
    rw [eachIn, Bool.and_eq_true, ih, List.forall_mem_cons]
    apply and_congr_left
    intro _
    cases fs.find? (·.id = e.id) <;> simp

theorem eachIn_self {es : List FlowElement} (hnd : (es.map id).Nodup)
    (h : ∀ e ∈ es, same e e = true) : eachIn es es = true :=
  eachIn_iff.mpr fun e he => ⟨e, find?_eq_some_of_nodup hnd he, h e he⟩

theorem same_self {e : FlowElement} (h : e.Assembled) : same e e = true := by
  induction e using contents_induction with
  | step e ih =>
    cases e with
    | subProcess a t es ls as =>
      have hcomplete := assembled_subProcess_iff.mp h
      have heach := eachIn_self hcomplete.wired.nodup fun e he => ih _ rfl e he (hcomplete.inner e he)
      simp [same, heach]
    | _ => simp [same]

end FlowElement

theorem Container.Complete.same_self {c : Container} (h : c.Complete) : c.same c = true := by
  have heach := FlowElement.eachIn_self h.wired.nodup fun e he => FlowElement.same_self (h.inner e he)
  simp [same, heach]

/-! ## Root elements and scopes -/

theorem Process.same_self {p : Process} (h : p.Assembled) : p.same p = true := by
  simp [same, (assembled_iff.mp h).same_self]

theorem Collaboration.same_self (c : Collaboration) : c.same c = true := by
  simp [same, ConversationNode.allSame_self]

theorem Root.same_self {r : Root} (h : r.Assembled) : r.same r = true := by
  cases r with
  | process p => exact Process.same_self h
  | collaboration c => exact c.same_self
  | _ => simp [same]

namespace Scope

variable {s t : Scope}

theorem sameImports_self {is : List Import} (h : ∀ i ∈ is, i.scope? = none) :
    sameImports is is = true := by
  induction is with
  | nil => simp [sameImports]
  | cons i is ih =>
    obtain ⟨hi, his⟩ := List.forall_mem_cons.mp h
    cases i with
    | unbound d => simp [sameImports, sameImport, ih his]
    | bound d stamp s => cases hi

/-- **Scopes that differ in their registries only count as equal.** -/
theorem same_of_eq (hc : s.Complete) (hnd : (s.roots.map Root.id).Nodup)
    (himports : ∀ i ∈ s.imports, i.scope? = none) (hheader : t.header = s.header)
    (hroots : t.roots = s.roots) (hrelationships : t.relationships = s.relationships)
    (hi : t.imports = s.imports) (hextensions : t.extensions = s.extensions) : s.same t = true := by
  obtain ⟨header, roots, relationships, imports, extensions, registry⟩ := s
  have hroot : ∀ r ∈ roots, ((t.root? r.id).any r.same) = true := by
    intro r hr
    rw [root?, hroots, find?_eq_some_of_nodup hnd hr]
    exact Root.same_self (hc r hr)
  simpa [same, hheader, hroots, hrelationships, hi, hextensions, sameImports_self himports]
    using hroot

end Scope

end BpmnModel
