import BpmnModel.Proofs.Stepwise

/-!
# Lookup of children while their owner grows

What an element owns is looked up list by list, by directory where the list has one.  Identifiers may
stand more than once, in one list or in several, since only a registry refuses that.

* `Roster.find?_foldl_push` — a roster answers with the first item, however many were appended.
* `Collaboration.rosters_foldl_add`, `Interface.operations_foldl_push` — the rosters of an owner that
  grows.
* `Container.Wired.foldlM_extend` — no identifier comes into a container twice.
* `Element.child?_first` — the lookup of a child finds the first child of that identifier.
-/

namespace BpmnModel

/-! ## Rosters -/

namespace Roster

variable {α : Type} {name : α → Id}

theorem find?_foldl_push (r : Roster α name) (items : List α) (id : Id) :
    (items.foldl push r).find? id = (r.items ++ items).find? (name · = id) := by
  rw [find?_eq, items_foldl_push]

end Roster

/-! ## Owners that grow -/

namespace Collaboration

/-- Each part goes to the roster of its kind. -/
theorem rosters_foldl_add (c : Collaboration) (parts : List Part) :
    (parts.foldl add c).participants =
        (parts.filterMap Part.participant?).foldl Roster.push c.participants ∧
      (parts.foldl add c).messageFlows =
        (parts.filterMap Part.messageFlow?).foldl Roster.push c.messageFlows ∧
      (parts.foldl add c).conversations =
        (parts.filterMap Part.conversation?).foldl Roster.push c.conversations ∧
      (parts.foldl add c).links = (parts.filterMap Part.link?).foldl Roster.push c.links := by
  induction parts generalizing c with
  | nil => exact ⟨rfl, rfl, rfl, rfl⟩
  | cons part parts ih => cases part <;> exact ih _

end Collaboration

theorem Interface.operations_foldl_push (i : Interface) (os : List Operation) :
    (os.foldl push i).operations = os.foldl Roster.push i.operations := by
  obtain ⟨hne, h⟩ := i.foldl_push os
  rw [h]

namespace Container

variable {c c' : Container}

theorem Wired.extend (h : c.Wired) {part : Part} (hext : c.extend part = .ok c') : c'.Wired := by
  cases part with
  | flowElement e => exact h.insert hext
  | laneSet s =>
    cases hext
    exact h.pushLaneSet s

theorem Wired.foldlM_extend (h : c.Wired) {parts : List Part}
    (hext : parts.foldlM Container.extend c = .ok c') : c'.Wired := by
  induction parts generalizing c with
  | nil =>
    cases hext
    exact h
  | cons part parts ih =>
    rw [List.foldlM_cons] at hext
    cases hpart : c.extend part with
    | error refusal =>
      rw [hpart] at hext
      cases hext
    | ok d =>
      rw [hpart] at hext
      exact ih (h.extend hpart) hext

end Container

/-! ## Children -/

/-- **The lookup of a child finds the first child of that identifier**, and nothing only if there is
none. The rosters of a collaboration or an interface answer with the first item of an identifier
however many were appended, whatever their identifiers; a container, which takes no identifier
twice, has each of its flow elements under its own. -/
theorem Element.child?_first (id : Id) :
    (∀ e : Element, e.child? id = e.children.find? (·.id = id) ∧
        (e.child? id = none ↔ ∀ c ∈ e.children, c.id ≠ id)) ∧
      (∀ (c : Collaboration) (parts : List Collaboration.Part),
        let d := parts.foldl .add c
        d.participants.find? id = (c.participants.items ++
            parts.filterMap Collaboration.Part.participant?).find? (·.id = id) ∧
          d.messageFlows.find? id = (c.messageFlows.items ++
            parts.filterMap Collaboration.Part.messageFlow?).find? (·.id = id) ∧
          d.conversations.find? id = (c.conversations.items ++
            parts.filterMap Collaboration.Part.conversation?).find? (·.id = id) ∧
          d.links.find? id = (c.links.items ++
            parts.filterMap Collaboration.Part.link?).find? (·.id = id)) ∧
      (∀ (i : Interface) (os : List Operation),
        (os.foldl .push i).operations.find? id = (i.operations.items ++ os).find? (·.id = id)) ∧
      ∀ (es : List FlowElement) (laneSets : List LaneSet) (parts : List Container.Part)
          (c : Container),
        (Container.assemble es laneSets >>= parts.foldlM Container.extend) = .ok c →
          ∀ x ∈ c.elements, c.find? x.id = some x := by
  refine ⟨fun e => ⟨e.child?_eq id, ?_⟩, ?_, ?_, ?_⟩
  · rw [e.child?_eq, List.find?_eq_none]
    simp only [decide_eq_true_iff, ne_eq]
  · intro c parts d
    obtain ⟨hparticipants, hmessageFlows, hconversations, hlinks⟩ := c.rosters_foldl_add parts
    refine ⟨?_, ?_, ?_, ?_⟩
    · rw [hparticipants, Roster.find?_foldl_push]
    · rw [hmessageFlows, Roster.find?_foldl_push]
    · rw [hconversations, Roster.find?_foldl_push]
    · rw [hlinks, Roster.find?_foldl_push]
  · intro i os
    rw [i.operations_foldl_push, Roster.find?_foldl_push]
  · intro es laneSets parts c hrun x hx
    obtain ⟨start, hstart, hext⟩ := bind_eq_ok.mp hrun
    have hwired := (Container.wired_of_assemble hstart).foldlM_extend hext
    exact find?_eq_some_of_unique hx fun y hy hid => List.inj_on_of_nodup_map hwired.nodup hy hx hid

/-- A message flow and two participants of one identifier, the message flow given first, and a
container with a flow to which its task comes later. -/
theorem Element.child?_first_twins :
    let flow : SequenceFlow := ⟨⟨.bare ⟨"f"⟩, none, []⟩, ⟨⟨"a"⟩⟩, ⟨⟨"a"⟩⟩, none, none⟩
    let task : FlowElement := .task (.bare ⟨"a"⟩) .plain
    let party (name : String) : Participant := ⟨.bare ⟨"x"⟩, some name, none, [], [], none⟩
    let message : MessageFlow := ⟨.bare ⟨"x"⟩, none, ⟨⟨"p"⟩⟩, ⟨⟨"q"⟩⟩, none⟩
    let c : Collaboration := [.messageFlow message, .participant (party "first"),
      .participant (party "second")].foldl Collaboration.add (.bare ⟨"c"⟩ false)
    c.participants.find? ⟨"x"⟩ = some (party "first") ∧
      (root (.collaboration c)).child? ⟨"x"⟩ = some (.participant (party "first")) ∧
      ∃ k, (Container.assemble [.sequenceFlow flow] [] >>=
          [Container.Part.flowElement task].foldlM Container.extend) = .ok k ∧
        k.elements.length = 2 ∧ ∀ x ∈ k.elements, k.find? x.id = some x := by
  intro flow task party message c
  obtain ⟨hchild, hparts, -, hcontainer⟩ := child?_first ⟨"x"⟩
  refine ⟨?_, ?_, ?_⟩
  · exact (hparts (.bare ⟨"c"⟩ false) [.messageFlow message, .participant (party "first"),
      .participant (party "second")]).1
  · exact (hchild (.root (.collaboration c))).1
  · obtain ⟨k, hk, hlength⟩ : ∃ k, (Container.assemble [.sequenceFlow flow] [] >>=
        [Container.Part.flowElement task].foldlM Container.extend) = .ok k ∧
          k.elements.length = 2 := ⟨_, rfl, rfl⟩
    exact ⟨k, hk, hlength, hcontainer _ _ _ k hk⟩

end BpmnModel
