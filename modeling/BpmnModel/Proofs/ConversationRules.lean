import BpmnModel.Proofs.CleanFlows
import BpmnModel.Proofs.FlowRules

/-!
# Conversations under a clean report

Two rules share the ends of a conversation link: one asks that they resolve to something that a link
can end at, the other that exactly one of them is a conversation node.

* `Element.IsConversation`, `Element.Interacts` — the two sorts of ends.  What a link can end at is of
  one of them (`Element.isConversation_or_interacts`).
* `Scope.ConversationsFit` — links, message flows and participants of conversations lead where they
  should, imports included.
* `Scope.byRule_links` — what the rule on the ends of links reports, link by link.
* `Scope.conversations_fit_of_clean` — a clean report vouches for conversations; and the rule on
  links is exact wherever both ends resolve.
-/

namespace BpmnModel

/-! ## The ends of a link -/

namespace Element

/-- A conversation, a sub-conversation or a call conversation. -/
def IsConversation (e : Element) : Prop := ∃ n, e = .conversationNode n

/-- A participant, an activity or an event. -/
def Interacts (e : Element) : Prop :=
  (∃ p, e = .participant p) ∨
    ∃ f, e = .flowElement f ∧ ((∃ a, f.activity? = some a) ∨ ∃ x, f = .event x)

variable {e : Element}

theorem has_conversationNode_iff : e.kind.has .conversationNode = true ↔ e.IsConversation := by
  rw [e.kind_has]
  cases e <;> simp [shows, IsConversation]

theorem has_interactionNode_iff : e.kind.has .interactionNode = true ↔ e.Interacts := by
  rw [e.kind_has]
  cases e with
  | flowElement f =>
    cases f <;> simp [shows, Interacts, activity?, flowElement?, FlowElement.activity?]
  | _ => simp [shows, Interacts, activity?, flowElement?]

/-- What a link can end at is of one of the two sorts. -/
theorem isConversation_or_interacts (h : Requirement.conversationEnd.isMetBy e.kind = true) :
    e.IsConversation ∨ e.Interacts := by
  rw [← has_conversationNode_iff, ← has_interactionNode_iff]
  simpa [Requirement.isMetBy, or_comm] using h

theorem eq_participant_of_kind (h : e.kind = .participant) : ∃ p, e = .participant p := by
  have hinteracts : e.Interacts := has_interactionNode_iff.mp (by rw [h]; rfl)
  rcases hinteracts with hp | ⟨f, rfl, -⟩
  · exact hp
  · have hflow := (flowElement f).kind_has .flowElement
    rw [h] at hflow
    cases hflow

end Element

namespace Scope

variable {s : Scope} {o : ValidationOptions}

/-! ## What the rule on links reports -/

/-- What the rule on the ends of links finds when something is met. -/
def linkFindings (s : Scope) : Visit → List Diagnostic
  | .link l => s.checkLink l
  | _ => []

theorem filter_findings_links (ho : o.isEnabled .conversationLinkEndpoints = true)
    (s : Scope) (executable : Bool) (v : Visit) :
    (s.findings o executable v).filter (·.rule = .conversationLinkEndpoints) =
      s.linkFindings v := by
  have other {r : Rule} {found : List Diagnostic} (h : OfRule r found)
      (hr : r ≠ .conversationLinkEndpoints) :
      (o.check r found).filter (·.rule = .conversationLinkEndpoints) = [] :=
    ((h.check o).others hr).filter_eq
  cases v with
  | process p => exact other (checkPublicProcess_ofRule p) (by decide)
  | collaboration c => exact other (checkGlobalConversation_ofRule c) (by decide)
  | link l =>
    refine (((s.checkLink_ofRule l).check o).filter_eq _).trans ?_
    rw [if_pos rfl, ValidationOptions.check, if_pos ho]
    rfl
  | references e => exact other (s.checkReferences_ofRule e) (by decide)
  | container e c => rfl
  | flowElement e c => exact (s.checkFlowElement_others rfl o executable e c).filter_eq

/-- **What the rule on the ends of links reports** is found where links are met, in the order of the
ownership tree. -/
theorem byRule_links (ho : o.isEnabled .conversationLinkEndpoints = true) (s : Scope) :
    (s.validate o).byRule .conversationLinkEndpoints =
      s.placed.flatMap fun p => p.encounters.flatMap s.linkFindings := by
  have hsteps (executable : Bool) (vs : List Visit) :
      ((Visit.inTurn executable vs).flatMap fun x => s.findings o x.1 x.2).filter
        (·.rule = .conversationLinkEndpoints) = vs.flatMap s.linkFindings := by
    induction vs generalizing executable with
    | nil => rfl
    | cons v vs ih =>
      rw [Visit.inTurn, List.flatMap_cons, List.filter_append, ih, filter_findings_links ho,
        List.flatMap_cons]
  rw [validate, Report.byRule_sorted (s.severity_of_mem_found o), found_eq, walk, hsteps, visits_eq,
    List.flatMap_assoc]

theorem element_of_mem_checkLink {l : ConversationLink} {d : Diagnostic} (hd : d ∈ s.checkLink l) :
    d.element = l.id := by
  unfold checkLink at hd
  split at hd
  · simp only at hd
    split at hd <;> simp_all
  · cases hd

/-- What is found along an element concerns it. -/
theorem element_of_mem_linkFindings {p : Placed} {d : Diagnostic}
    (hd : d ∈ p.encounters.flatMap s.linkFindings) : d.element = p.id := by
  obtain ⟨v, hv, hd⟩ := List.mem_flatMap.mp hd
  cases v with
  | link l =>
    have hsubject : Element.conversationLink l = p.element := Element.subject_eq hv nofun
    rw [element_of_mem_checkLink hd, Placed.id, ← hsubject]
    rfl
  | _ => cases hd

/-- What the rule reports of one link. -/
theorem Agrees.filter_links (h : s.Agrees) (ho : o.isEnabled .conversationLinkEndpoints = true)
    {owner : Option Id} {l : ConversationLink} (hl : ⟨owner, .conversationLink l⟩ ∈ s.placed) :
    ((s.validate o).byRule .conversationLinkEndpoints).filter (·.element = l.id) =
      s.checkLink l := by
  rw [byRule_links ho]
  have hone := filter_flatMap_of_nodup h.records.nodup hl fun p d =>
    element_of_mem_linkFindings (s := s) (p := p)
  exact hone.trans (List.append_nil _)

/-- **Where both ends resolve the rule is exact.** -/
theorem checkLink_cases {l : ConversationLink} {a b : Element}
    (ha : s.lookup l.source.id = some a) (hb : s.lookup l.target.id = some b) :
    (s.checkLink l = [] ∧ (a.IsConversation ↔ ¬b.IsConversation)) ∨
      ((∃ d, s.checkLink l = [d] ∧ d.severity = .error ∧ d.code = some .linkEndpoints) ∧
        (a.IsConversation ↔ b.IsConversation)) := by
  rw [← Element.has_conversationNode_iff, ← Element.has_conversationNode_iff, checkLink, ha, hb]
  simp only
  split
  · rename_i hsource htarget
    exact .inr ⟨⟨_, rfl, rfl, rfl⟩, by rw [hsource, htarget]⟩
  · rename_i hsource htarget
    exact .inr ⟨⟨_, rfl, rfl, rfl⟩, by rw [hsource, htarget]⟩
  · rename_i hconversations hothers
    refine .inl ⟨rfl, ?_⟩
    cases hsource : a.kind.has .conversationNode <;>
      cases htarget : b.kind.has .conversationNode <;> simp_all

/-! ## Clean reports -/

/-- The identifier is registered along the search, and first of all for this element. -/
def LeadsTo (s : Scope) (id : Id) (e : Element) : Prop := ∃ t, s.FirstFound id t e

/-- Conversations and messages join what they may join: of the two ends of a link one is a
conversation node and the other one, another element, is not but interacts; a message flow joins
elements that interact; conversation nodes name participants; and global conversations are empty. -/
structure ConversationsFit (s : Scope) : Prop where
  links : ∀ owner l, ⟨owner, .conversationLink l⟩ ∈ s.placed → ∃ a b,
    s.LeadsTo l.source.id a ∧ s.LeadsTo l.target.id b ∧ a ≠ b ∧
      (a.IsConversation ∧ ¬b.IsConversation ∧ b.Interacts ∨
        b.IsConversation ∧ ¬a.IsConversation ∧ a.Interacts)
  messageFlows : ∀ owner f, ⟨owner, .messageFlow f⟩ ∈ s.placed → ∃ a b,
    s.LeadsTo f.source.id a ∧ s.LeadsTo f.target.id b ∧ a.Interacts ∧ b.Interacts
  participants : ∀ owner n, ⟨owner, .conversationNode n⟩ ∈ s.placed →
    ∀ ref ∈ n.base.participantRefs, ∃ p, s.LeadsTo ref.id (.participant p)
  globalConversations : ∀ c, .collaboration c ∈ s.roots → c.isGlobal = true →
    c.conversations.items = [] ∧ c.links.items = []

section Clean

variable (h : Reachable s) (clean : (s.validate default).isClean = true) {owner : Option Id}

include h clean

/-- Under a clean report every reference leads to an element that it may lead to. -/
theorem leadsTo_of_clean {x : Element} (hx : ⟨owner, x⟩ ∈ s.placed) (ref : Reference)
    (href : ref ∈ x.references) : ∃ e, s.LeadsTo ref.id e ∧ s.lookup ref.id = some e ∧
      ref.requires.isMetBy e.kind = true := by
  obtain ⟨e, he⟩ := resolves_of_clean clean hx href
  obtain ⟨hlookup, hmet⟩ := resolve_eq_ok_iff.mp he
  exact ⟨e, (lookup_eq_some_iff h).mp hlookup, hlookup, hmet⟩

/-- **The ends of a link are a conversation node and something that interacts.** -/
theorem link_of_clean {l : ConversationLink} (hl : ⟨owner, .conversationLink l⟩ ∈ s.placed) :
    ∃ a b, s.LeadsTo l.source.id a ∧ s.LeadsTo l.target.id b ∧ a ≠ b ∧
      (a.IsConversation ∧ ¬b.IsConversation ∧ b.Interacts ∨
        b.IsConversation ∧ ¬a.IsConversation ∧ a.Interacts) := by
  obtain ⟨a, ha, halookup, hamet⟩ := leadsTo_of_clean h clean hl
    (l.source.inField "sourceRef") (by simp [Element.references, ConversationLink.references])
  obtain ⟨b, hb, hblookup, hbmet⟩ := leadsTo_of_clean h clean hl
    (l.target.inField "targetRef") (by simp [Element.references, ConversationLink.references])
  have hchecked : s.checkLink l = [] := by
    have hvisit : .link l ∈ s.visits := by
      rw [visits_eq]
      exact List.mem_flatMap.mpr ⟨_, hl, List.mem_cons_self⟩
    obtain ⟨before, hfound⟩ := findings_of_clean clean hvisit
    exact (List.append_eq_nil_iff.mp hfound).2
  have hone : a.IsConversation ↔ ¬b.IsConversation := by
    rcases checkLink_cases halookup hblookup with ⟨-, hone⟩ | ⟨⟨d, hd, -⟩, -⟩
    · exact hone
    · rw [hchecked] at hd
      cases hd
  refine ⟨a, b, ha, hb, ?_, ?_⟩
  · rintro rfl
    exact iff_not_self hone
  · by_cases hconversation : b.IsConversation
    · have hother : ¬a.IsConversation := fun h => hone.mp h hconversation
      exact .inr ⟨hconversation, hother,
        (Element.isConversation_or_interacts hamet).resolve_left hother⟩
    · exact .inl ⟨hone.mpr hconversation, hconversation,
        (Element.isConversation_or_interacts hbmet).resolve_left hconversation⟩

theorem messageFlow_of_clean {f : MessageFlow} (hf : ⟨owner, .messageFlow f⟩ ∈ s.placed) :
    ∃ a b, s.LeadsTo f.source.id a ∧ s.LeadsTo f.target.id b ∧ a.Interacts ∧ b.Interacts := by
  obtain ⟨a, ha, -, hamet⟩ := leadsTo_of_clean h clean hf (f.source.inField "sourceRef")
    (by simp [Element.references, MessageFlow.references])
  obtain ⟨b, hb, -, hbmet⟩ := leadsTo_of_clean h clean hf (f.target.inField "targetRef")
    (by simp [Element.references, MessageFlow.references])
  exact ⟨a, b, ha, hb, Element.has_interactionNode_iff.mp hamet,
    Element.has_interactionNode_iff.mp hbmet⟩

theorem participant_of_clean {n : ConversationNode} (hn : ⟨owner, .conversationNode n⟩ ∈ s.placed)
    {ref : RefTo .participant} (href : ref ∈ n.base.participantRefs) :
    ∃ p, s.LeadsTo ref.id (.participant p) := by
  have hlisted : ref.inField "participantRefs" ∈ (Element.conversationNode n).references := by
    have hmem := List.mem_map_of_mem (f := (·.inField "participantRefs")) href
    simp only [Element.references, ConversationNode.references, Ref.listInField, List.mem_append]
    exact .inl (.inl (.inr hmem))
  obtain ⟨e, he, -, hmet⟩ := leadsTo_of_clean h clean hn _ hlisted
  obtain ⟨p, rfl⟩ := Element.eq_participant_of_kind (e := e)
    (by simpa [Ref.inField, Requirement.isMetBy] using hmet)
  exact ⟨p, he⟩

omit h in
theorem globalConversation_of_clean {c : Collaboration} (hc : .collaboration c ∈ s.roots)
    (hglobal : c.isGlobal = true) : c.conversations.items = [] ∧ c.links.items = [] := by
  have hvisit : .collaboration c ∈ s.visits :=
    List.mem_append_left _ (List.mem_flatMap.mpr ⟨_, hc, List.mem_cons_self⟩)
  obtain ⟨before, hfound⟩ := findings_of_clean clean hvisit
  have hchecked : checkGlobalConversation c = [] := (List.append_eq_nil_iff.mp hfound).2
  unfold checkGlobalConversation at hchecked
  simp only at hchecked
  split at hchecked
  · cases hchecked
  · rename_i hempty
    simpa [hglobal] using hempty

end Clean

/-- **A clean report vouches for conversations, across imports**: the two ends of every conversation
link are a conversation node and another element that interacts, message flows join elements that
interact, conversation nodes name participants at every depth, and global conversations are empty.
Conversely, under any options the rule on links is exact where both ends of a link resolve as they
have to: it reports nothing of the link if one end alone is a conversation node, and one error
otherwise. -/
theorem conversations_fit_of_clean (origin : Reachable s ∨ ∃ d, ofDocument d = .ok s) :
    ((s.validate default).isClean = true → s.ConversationsFit) ∧
      ∀ o, o.isEnabled .conversationLinkEndpoints = true → ∀ owner l a b,
        ⟨owner, .conversationLink l⟩ ∈ s.placed →
        s.resolveRef l.source = .ok a → s.resolveRef l.target = .ok b →
        let found := ((s.validate o).byRule .conversationLinkEndpoints).filter (·.element = l.id)
        ((a.IsConversation ↔ ¬b.IsConversation) → found = []) ∧
          (¬(a.IsConversation ↔ ¬b.IsConversation) →
            ∃ d, found = [d] ∧ d.severity = .error ∧ d.code = some .linkEndpoints) := by
  have hs := reachable_of_origin origin
  refine ⟨fun clean => ?_, ?_⟩
  · exact {
      links := fun owner l hl => link_of_clean hs clean hl
      messageFlows := fun owner f hf => messageFlow_of_clean hs clean hf
      participants := fun owner n hn ref href => participant_of_clean hs clean hn href
      globalConversations := fun c hc hglobal => globalConversation_of_clean clean hc hglobal }
  · intro o ho owner l a b hl ha hb found
    have hfound : found = s.checkLink l := hs.agrees.filter_links ho hl
    rcases checkLink_cases (resolve_eq_ok_iff.mp ha).1 (resolve_eq_ok_iff.mp hb).1 with
      ⟨hnil, hone⟩ | ⟨⟨d, hd, hseverity, hcode⟩, hsame⟩
    · exact ⟨fun _ => hfound.trans hnil, fun hnot => absurd hone hnot⟩
    · refine ⟨fun hone => ?_, fun _ => ⟨d, hfound.trans hd, hseverity, hcode⟩⟩
      exact absurd (hsame.symm.trans hone) iff_not_self

/-- A participant with nothing but an identifier. -/
def party (id : Id) : Participant := ⟨.bare id, none, none, [], [], none⟩

/-- A link between two ends. -/
def linkOf (id source target : Id) : ConversationLink := ⟨.bare id, none, ⟨source⟩, ⟨target⟩⟩

/-- A scope with a participant that another scope can import. -/
def abroad : Scope :=
  (Change.addParticipant ⟨"l"⟩ (party ⟨"b"⟩)).after <|
    (Change.addRoot (.collaboration (.bare ⟨"l"⟩ false))).after (fresh ⟨"Library"⟩ "urn:l")

/-- A scope in which a conversation is linked to a participant of an import. -/
def parley : Scope :=
  (Change.addLink ⟨"c"⟩ (linkOf ⟨"k"⟩ ⟨"n"⟩ ⟨"b"⟩)).after <|
    (Change.addConversation ⟨"c"⟩
      (.conversation ⟨.bare ⟨"n"⟩, none, [⟨⟨"a"⟩⟩, ⟨⟨"b"⟩⟩], [], by decide⟩ [])).after <|
    (Change.addParticipant ⟨"c"⟩ (party ⟨"a"⟩)).after <|
    (Change.addRoot (.collaboration (.bare ⟨"c"⟩ false))).after <|
    (Change.addImport (.bound ⟨.bpmn20, "urn:l", "l.bpmn"⟩ 0 abroad)).after
      (fresh ⟨"Defs"⟩ "urn:t")

theorem parley_reachable : Reachable parley := by
  have habroad : Reachable abroad :=
    .after (.addParticipant _ _) trivial nofun <| .after _ trivial nofun (.fresh _ _)
  exact .after (.addLink _ _) trivial nofun <| .after (.addConversation _ _) trivial nofun <|
    .after (.addParticipant _ _) trivial nofun <| .after _ trivial nofun <|
    .after (.addImport _) trivial (by rintro t ⟨⟩; exact habroad) (.fresh _ _)

/-- The link of this scope fits. One more between the participants is reported. -/
theorem conversations_fit_of_clean_parley :
    let before := parley
    let s := (Change.addLink ⟨"c"⟩ (linkOf ⟨"j"⟩ ⟨"a"⟩ ⟨"b"⟩)).after before
    before.ConversationsFit ∧
      ⟨some ⟨"c"⟩, .conversationLink (linkOf ⟨"k"⟩ ⟨"n"⟩ ⟨"b"⟩)⟩ ∈ before.placed ∧
      ∃ d, ((s.validate default).byRule .conversationLinkEndpoints).filter
        (·.element = ⟨"j"⟩) = [d] ∧ d.severity = .error := by
  intro before s
  have hs : Reachable s := .after (.addLink _ _) trivial nofun parley_reachable
  have clean : (before.validate default).isClean = true := by decide +kernel
  have hlinked : ⟨some ⟨"c"⟩, .conversationLink (linkOf ⟨"j"⟩ ⟨"a"⟩ ⟨"b"⟩)⟩ ∈ s.placed :=
    List.mem_of_getElem? (i := 4) rfl
  obtain ⟨fit, -⟩ := conversations_fit_of_clean (.inl parley_reachable)
  obtain ⟨-, rule⟩ := conversations_fit_of_clean (.inl hs)
  obtain ⟨-, hreported⟩ := rule default rfl _ _ (.participant (party ⟨"a"⟩))
    (.participant (party ⟨"b"⟩)) hlinked rfl rfl
  obtain ⟨d, hd, hseverity, -⟩ := hreported (by simp [Element.IsConversation])
  exact ⟨fit clean, List.mem_of_getElem? (i := 3) rfl, d, hd, hseverity⟩

end Scope

end BpmnModel
