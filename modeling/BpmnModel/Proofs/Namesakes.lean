import BpmnModel.Proofs.Rearrangement

/-!
# Elements that count as equal

Only processes and sub-processes can count as equal without being equal, and they differ in the
order of what they contain.

* `Element.same` — equality of elements; `Element.same_cases` says what it leaves open.
* `Element.rearranged_placed` — the ownership trees of elements that count as equal agree up to
  order.
-/

namespace BpmnModel

/-! ## Equality that is plain equality -/

namespace ConversationNode

mutual

theorem eq_of_same : ∀ {n m : ConversationNode}, same n m = true → n = m
  | conversation b fs, conversation c gs, h => by
    simpa [same] using h
  | subConversation b fs ns, subConversation c gs ms, h => by
    simp only [same, Bool.and_eq_true, beq_iff_eq] at h
    obtain ⟨⟨rfl, rfl⟩, hns⟩ := h
    rw [eq_of_allSame hns]
  | callConversation b d as, callConversation c e bs, h => by
    simpa [same, and_assoc] using h

theorem eq_of_allSame : ∀ {ns ms : List ConversationNode}, allSame ns ms = true → ns = ms
  | [], [], _ => rfl
  | n :: ns, m :: ms, h => by
    simp only [allSame, Bool.and_eq_true] at h
    rw [eq_of_same h.1, eq_of_allSame h.2]

end

end ConversationNode

theorem Collaboration.eq_of_same {c d : Collaboration} (h : c.same d = true) : c = d := by
  obtain ⟨identity, isGlobal, name, isClosed, participants, messageFlows, conversations, links,
    artifacts, keys, pas, mas, cas⟩ := c
  obtain ⟨identity', isGlobal', name', isClosed', participants', messageFlows', conversations',
    links', artifacts', keys', pas', mas', cas'⟩ := d
  simp only [same, Bool.and_eq_true, beq_iff_eq] at h
  obtain ⟨⟨⟨⟨⟨⟨⟨⟨⟨⟨⟨⟨rfl, rfl⟩, rfl⟩, rfl⟩, hp⟩, hm⟩, hc⟩, hl⟩, rfl⟩, rfl⟩, rfl⟩, rfl⟩, rfl⟩ := h
  rw [Roster.eq_of_items hp, Roster.eq_of_items hm, Roster.eq_of_items hl,
    Roster.eq_of_items (ConversationNode.eq_of_allSame hc)]

/-! ## What equality leaves open -/

namespace FlowElement

theorem same_cases {e f : FlowElement} (h : same e f = true) :
    (∃ a t es fs ls as, e = subProcess a t es ls as ∧ f = subProcess a t fs ls as ∧
      Container.same ⟨es, ls⟩ ⟨fs, ls⟩ = true) ∨ (e.container? = none ∧ e = f) := by
  cases e with
  | subProcess a t es ls as =>
    cases f with
    | subProcess b u fs ms bs =>
      simp only [same, Bool.and_eq_true, beq_iff_eq] at h
      obtain ⟨⟨⟨⟨⟨rfl, rfl⟩, hlength⟩, heach⟩, rfl⟩, rfl⟩ := h
      exact .inl ⟨a, t, es, fs, ls, as, rfl, rfl, by simp [Container.same, hlength, heach]⟩
    | _ => simp [same] at h
  | _ =>
    refine .inr ⟨rfl, ?_⟩
    cases f <;> simp [same] at h ⊢
    all_goals assumption

theorem id_of_same {e f : FlowElement} (h : same e f = true) : e.id = f.id := by
  rcases same_cases h with ⟨a, t, es, fs, ls, as, rfl, rfl, -⟩ | ⟨-, rfl⟩ <;> rfl

end FlowElement

theorem Container.rearranged_elements {c d : Container} (h : c.same d = true)
    (hnd : (c.elements.map FlowElement.id).Nodup) :
    Rearranged (fun e f => FlowElement.same e f = true) c.elements d.elements ∧
      c.laneSets = d.laneSets := by
  simp only [same, Bool.and_eq_true, beq_iff_eq] at h
  obtain ⟨⟨hlength, heach⟩, hls⟩ := h
  exact ⟨.of_namesakes hnd hlength (FlowElement.eachIn_iff.mp heach), hls⟩

theorem Root.same_cases {r q : Root} (h : r.same q = true) :
    (∃ p c, r = .process p ∧ q = .process { p with container := c } ∧
      p.container.same c = true) ∨ ((Element.root r).Flowless ∧ r = q) := by
  cases r with
  | process p =>
    cases q with
    | process p' =>
      obtain ⟨identity, name, type, isExecutable, isClosed, container, artifacts, resources,
        subscriptions, interfaces, supports, ref⟩ := p
      obtain ⟨identity', name', type', isExecutable', isClosed', container', artifacts', resources',
        subscriptions', interfaces', supports', ref'⟩ := p'
      simp only [same, Process.same, Bool.and_eq_true, beq_iff_eq] at h
      obtain ⟨⟨⟨⟨⟨⟨⟨⟨⟨⟨⟨rfl, rfl⟩, rfl⟩, rfl⟩, rfl⟩, hc⟩, rfl⟩, rfl⟩, rfl⟩, rfl⟩, rfl⟩, rfl⟩ := h
      exact .inl ⟨_, container', rfl, rfl, hc⟩
    | _ => simp [same] at h
  | collaboration c =>
    cases q with
    | collaboration d => exact .inr ⟨trivial, congrArg _ (Collaboration.eq_of_same h)⟩
    | _ => simp [same] at h
  | _ =>
    refine .inr ⟨trivial, ?_⟩
    cases q <;> simp [same] at h ⊢
    all_goals assumption

namespace Element

/-- Equality of elements; the order of flow elements does not count. -/
def same : Element → Element → Bool
  | root r, root q => r.same q
  | operation o, operation p => o == p
  | resourceParameter p, resourceParameter q => p == q
  | categoryValue v, categoryValue w => v == w
  | correlationKey k, correlationKey l => k == l
  | participant p, participant q => p == q
  | messageFlow f, messageFlow g => f == g
  | conversationNode n, conversationNode m => n.same m
  | conversationLink l, conversationLink m => l == m
  | flowElement e, flowElement f => e.same f
  | laneSet s, laneSet t => s == t
  | lane l, lane m => l == m
  | artifact a, artifact b => a == b
  | relationship r, relationship s => r == s
  | _, _ => false

variable {e f : Element}

/-- **Elements that count as equal are equal, or they are processes or sub-processes that differ in
the order of flow elements.** -/
theorem same_cases (h : e.same f = true) :
    (∃ p c, e = .root (.process p) ∧ f = .root (.process { p with container := c }) ∧
      p.container.same c = true) ∨
    (∃ a t es fs ls as, e = .flowElement (.subProcess a t es ls as) ∧
      f = .flowElement (.subProcess a t fs ls as) ∧ Container.same ⟨es, ls⟩ ⟨fs, ls⟩ = true) ∨
    (e.container? = none ∧ e = f) := by
  cases e with
  | root r =>
    cases f with
    | root q =>
      rcases Root.same_cases h with ⟨p, c, rfl, rfl, hc⟩ | ⟨hflowless, rfl⟩
      · exact .inl ⟨p, c, rfl, rfl, hc⟩
      · refine .inr (.inr ⟨?_, rfl⟩)
        cases r with
        | process p => exact hflowless.elim
        | _ => rfl
    | _ => cases h
  | flowElement x =>
    cases f with
    | flowElement y =>
      rcases FlowElement.same_cases h with ⟨a, t, es, fs, ls, as, rfl, rfl, hc⟩ | ⟨hnone, rfl⟩
      · exact .inr (.inl ⟨a, t, es, fs, ls, as, rfl, rfl, hc⟩)
      · exact .inr (.inr ⟨hnone, rfl⟩)
    | _ => cases h
  | conversationNode n =>
    cases f with
    | conversationNode m =>
      exact .inr (.inr ⟨rfl, congrArg _ (ConversationNode.eq_of_same h)⟩)
    | _ => cases h
  | _ =>
    refine .inr (.inr ⟨rfl, ?_⟩)
    cases f <;> simp [same] at h ⊢
    all_goals assumption

/-- An element that contains nothing counts as equal to itself. -/
theorem same_self (h : e.container? = none) : e.same e = true := by
  cases e with
  | root r => exact r.same_self (Root.assembled_of_plain h)
  | flowElement x =>
    cases x with
    | subProcess a t es ls as => cases h
    | _ => simp [same, FlowElement.same]
  | conversationNode n => exact n.same_self
  | _ => simp [same]

theorem identity_of_same (h : e.same f = true) : e.identity = f.identity := by
  rcases same_cases h with ⟨p, c, rfl, rfl, -⟩ | ⟨a, t, es, fs, ls, as, rfl, rfl, -⟩ | ⟨-, rfl⟩ <;> rfl

theorem id_of_same (h : e.same f = true) : e.id = f.id :=
  congrArg Identity.id (identity_of_same h)

theorem kind_of_same (h : e.same f = true) : e.kind = f.kind := by
  rcases same_cases h with ⟨p, c, rfl, rfl, -⟩ | ⟨a, t, es, fs, ls, as, rfl, rfl, -⟩ | ⟨-, rfl⟩ <;> rfl

theorem references_of_same (h : e.same f = true) : e.references = f.references := by
  rcases same_cases h with ⟨p, c, rfl, rfl, -⟩ | ⟨a, t, es, fs, ls, as, rfl, rfl, -⟩ | ⟨-, rfl⟩ <;> rfl

/-- What an element without a container owns has none either. -/
theorem container?_of_mem_children (h : e.container? = none) :
    ∀ c ∈ e.children, c.container? = none := by
  intro c hc
  cases c with
  | root r => cases root?_of_mem_children hc
  | flowElement x =>
    obtain ⟨k, hk, -⟩ := mem_container_of_mem_children hc
    cases h.symm.trans hk
  | _ => rfl

end Element

/-! ## Ownership trees -/

theorem Container.rearranged_owned {c d : Container} (h : c.same d = true)
    (hnd : (c.owned.map Element.id).Nodup) :
    Rearranged (fun e f => Element.same e f = true) c.owned d.owned := by
  rw [owned, List.map_append, List.map_map] at hnd
  obtain ⟨helements, hls⟩ := rearranged_elements h (List.nodup_append.mp hnd).1
  refine .append (helements.map fun _ _ _ _ hef => hef) ?_
  rw [hls]
  exact .refl (List.forall_mem_map.mpr fun s _ => Element.same_self rfl)

namespace Element

variable {e f : Element}

/-- Elements that count as equal own the same, up to order. -/
theorem rearranged_children (h : e.same f = true) (hnd : (e.children.map id).Nodup) :
    Rearranged (fun x y => same x y = true) e.children f.children := by
  have contents {c d : Container} {artifacts : List Artifact} (hc : c.same d = true)
      (hnd : ((c.owned ++ artifacts.map artifact).map id).Nodup) :
      Rearranged (fun x y => same x y = true) (c.owned ++ artifacts.map artifact)
        (d.owned ++ artifacts.map artifact) := by
    rw [List.map_append] at hnd
    exact .append (Container.rearranged_owned hc (List.nodup_append.mp hnd).1)
      (.refl (List.forall_mem_map.mpr fun a _ => same_self rfl))
  rcases same_cases h with ⟨p, c, rfl, rfl, hc⟩ | ⟨a, t, es, fs, ls, as, rfl, rfl, hc⟩ | ⟨hnone, rfl⟩
  · exact contents hc hnd
  · exact contents hc hnd
  · exact .refl fun x hx => same_self (container?_of_mem_children hnone x hx)

end Element

/-- The elements count as equal and have the same owner. -/
def Placed.Same (p q : Placed) : Prop :=
  p.owner = q.owner ∧ p.element.same q.element = true

theorem Placed.Same.slot {p q : Placed} (h : p.Same q) : p.slot = q.slot := by
  obtain ⟨howner, hsame⟩ := h
  rw [Placed.slot, Placed.slot, Placed.id, Placed.id, howner, Element.id_of_same hsame,
    Element.kind_of_same hsame]

/-- **The ownership trees of elements that count as equal agree up to order**, if no identifier
stands twice in them. -/
theorem Element.rearranged_placed {e f : Element} (h : e.same f = true) (owner : Option Id)
    (hnd : ((e.placed owner).map Placed.id).Nodup) :
    Rearranged Placed.Same (e.placed owner) (f.placed owner) := by
  induction e using children_induction generalizing f owner with
  | step e ih =>
    obtain ⟨hchildren, hbelow⟩ := nodup_children hnd
    rw [placed_eq, placed_eq f, ← id_of_same h]
    refine .cons ⟨rfl, h⟩ ((rearranged_children h hchildren).flatMap fun c hc d _ hcd => ?_)
    exact ih c hc hcd _ (hbelow c hc)

end BpmnModel
