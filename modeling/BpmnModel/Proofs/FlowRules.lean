import BpmnModel.Proofs.Coverage
import BpmnModel.Proofs.Dependence
import BpmnModel.Proofs.RoundTrip

/-!
# Rules on what a walk shows

Some rules look at a flow element, at its container and at whether the process around it is
executable, and at nothing else of a scope.  What such a rule reports is found where a walk shows
the element, and a walk shows every flow element once.

* `Showing`, `Scope.showings` — flow elements as a walk shows them, in order.
* `Scope.byRule_eq` — what such a rule reports, showing by showing.
* `Scope.Agrees.filter_byRule` — hence what it reports of one flow element.
* `Scope.deferred_flows_reported` — the rule on immediate flows keeps processes apart.
-/

namespace BpmnModel

/-! ## Showings -/

/-- A flow element as a walk shows it: in its container, and below a process that is executable or
not. -/
structure Showing where
  executable : Bool
  container : Container
  element : FlowElement

namespace Rule

/-- The rule looks at nothing but what is shown. -/
def isLocal : Rule → Bool
  | gatewayDegree | mixedGateway | executableImmediacy => true
  | _ => false

end Rule

namespace Showing

/-- What a rule finds that looks at nothing but what is shown. -/
def found (rule : Rule) (x : Showing) : List Diagnostic :=
  match rule, x.element with
  | .gatewayDegree, .gateway g => checkGatewayDegree g x.container
  | .mixedGateway, .gateway g => checkMixedGateway g x.container
  | .executableImmediacy, .sequenceFlow f => checkImmediacy x.executable f
  | _, _ => []

end Showing

/-- The flow elements that are shown at the owner of a container. -/
def Element.showings (executable : Bool) (e : Element) : List Showing :=
  match e.container? with
  | none => []
  | some c => c.elements.map fun f => ⟨executable, c, f⟩

/-- The flow elements that are shown along a root element. -/
def Root.showings (r : Root) : List Showing :=
  (Element.root r).subtree.flatMap (Element.showings r.executable)

theorem Root.exists_process_of_executable {r : Root} (h : r.executable = true) :
    ∃ p, r = .process p ∧ p.isExecutable = some true := by
  cases r with
  | process p => exact ⟨p, rfl, by simpa [executable] using h⟩
  | _ => cases h

namespace Scope

/-- The flow elements that a walk shows. -/
def showings (s : Scope) : List Showing := s.roots.flatMap Root.showings

end Scope

/-! ## What is found at one element -/

theorem element_of_mem_checkGatewayDegree {g : Gateway} {c : Container} {d : Diagnostic}
    (hd : d ∈ checkGatewayDegree g c) : d.element = g.base.id := by
  unfold checkGatewayDegree at hd
  simp only at hd
  split at hd
  · split at hd <;> simp_all
  · split at hd <;> simp_all
  · cases hd
  · cases hd

theorem element_of_mem_checkMixedGateway {g : Gateway} {c : Container} {d : Diagnostic}
    (hd : d ∈ checkMixedGateway g c) : d.element = g.base.id := by
  unfold checkMixedGateway at hd
  simp only at hd
  split at hd <;> simp_all

/-- What is found at a flow that is not immediate. -/
theorem of_mem_checkImmediacy {executable : Bool} {f : SequenceFlow} {d : Diagnostic}
    (hd : d ∈ checkImmediacy executable f) :
    executable = true ∧ f.isImmediate = some false ∧ d.element = f.id ∧ d.severity = .error ∧
      d.code = some .deferredFlow := by
  unfold checkImmediacy at hd
  split at hd
  · rename_i h
    rw [List.mem_singleton.mp hd]
    exact ⟨h.1, h.2, rfl, rfl, rfl⟩
  · cases hd

theorem length_checkImmediacy (executable : Bool) (f : SequenceFlow) :
    (checkImmediacy executable f).length =
      if executable = true ∧ f.isImmediate = some false then 1 else 0 := by
  unfold checkImmediacy
  split <;> rfl

namespace Showing

variable {rule : Rule} {x : Showing} {d : Diagnostic}

/-- What is found concerns what is shown. -/
theorem element_of_mem_found (hd : d ∈ x.found rule) : d.element = x.element.id := by
  unfold found at hd
  split at hd
  · rename_i hg
    rw [hg]
    exact element_of_mem_checkGatewayDegree hd
  · rename_i hg
    rw [hg]
    exact element_of_mem_checkMixedGateway hd
  · rename_i hf
    rw [hf]
    exact (of_mem_checkImmediacy hd).2.2.1
  · cases hd

theorem exists_sequenceFlow_of_mem_found (hd : d ∈ x.found .executableImmediacy) :
    ∃ f, x.element = .sequenceFlow f ∧ d ∈ checkImmediacy x.executable f := by
  obtain ⟨executable, c, e⟩ := x
  cases e with
  | sequenceFlow f => exact ⟨f, rfl, hd⟩
  | _ => cases hd

theorem exists_gateway_of_mem_found (hrule : rule = .gatewayDegree ∨ rule = .mixedGateway)
    (hd : d ∈ x.found rule) : ∃ g, x.element = .gateway g := by
  obtain ⟨executable, c, e⟩ := x
  cases e with
  | gateway g => exact ⟨g, rfl⟩
  | _ => rcases hrule with rfl | rfl <;> cases hd

end Showing

/-- Other rules that are not of this sort add nothing to what such a rule finds. -/
theorem OfRule.filter_check_of_isLocal {rule other : Rule} {found : List Diagnostic}
    (h : OfRule other found) (hother : other.isLocal = false) (hlocal : rule.isLocal = true)
    (o : ValidationOptions) : (o.check other found).filter (·.rule = rule) = [] := by
  refine ((h.check o).others ?_).filter_eq
  rintro rfl
  cases hother.symm.trans hlocal

namespace Scope

section Local

variable {o : ValidationOptions} {rule : Rule} (hlocal : rule.isLocal = true)
  (ho : o.isEnabled rule = true)

include hlocal ho

theorem filter_checkFlowElement (s : Scope) (executable : Bool) (e : FlowElement) (c : Container) :
    (s.checkFlowElement o executable e c).filter (·.rule = rule) =
      Showing.found rule ⟨executable, c, e⟩ := by
  have other {r : Rule} {found : List Diagnostic} (h : OfRule r found) (hr : r.isLocal = false) :=
    h.filter_check_of_isLocal hr hlocal o
  unfold checkFlowElement
  rw [List.filter_append]
  refine congrArg₂ (· ++ ·) (?_ : _ = []) (?_ : _ = Showing.found rule ⟨executable, c, e⟩)
  · cases e.edges? with
    | none => rfl
    | some edges => exact other (s.checkEdges_ofRule e.id edges) rfl
  · cases e with
    | gateway g =>
      simp only [List.filter_append, other (s.checkDefaultFlow_ofRule _ _) rfl, List.append_nil,
        ((checkGatewayDegree_ofRule g c).check o).filter_eq,
        ((checkMixedGateway_ofRule g c).check o).filter_eq]
      cases rule <;> simp_all [Showing.found, ValidationOptions.check]
    | event e => cases rule <;> rfl
    | sequenceFlow f =>
      simp only [List.filter_append, other (s.checkContainment_ofRule f c) rfl, List.nil_append,
        ((checkImmediacy_ofRule executable f).check o).filter_eq]
      cases rule <;> simp_all [Showing.found, ValidationOptions.check]
    | _ =>
      refine (other (s.checkDefaultFlow_ofRule _ _) rfl).trans ?_
      cases rule <;> rfl

omit ho in
/-- What is met apart from flow elements adds findings of other rules. -/
theorem filter_findings_of_hook (s : Scope) (executable : Bool) {v : Visit}
    (hv : v.hook ≠ .flowElement) :
    (s.findings o executable v).filter (·.rule = rule) = [] := by
  have other {r : Rule} {found : List Diagnostic} (h : OfRule r found) (hr : r.isLocal = false) :=
    h.filter_check_of_isLocal hr hlocal o
  cases v with
  | process p => exact other (checkPublicProcess_ofRule p) rfl
  | collaboration c => exact other (checkGlobalConversation_ofRule c) rfl
  | link l => exact other (s.checkLink_ofRule l) rfl
  | references e => exact other (s.checkReferences_ofRule e) rfl
  | container e c => rfl
  | flowElement e c => exact absurd rfl hv

/-- What is found at an element is found where flow elements are shown there. -/
theorem filter_findingsAt (s : Scope) (executable : Bool) (e : Element) :
    (s.findingsAt o executable e).filter (·.rule = rule) =
      (e.showings executable).flatMap (Showing.found rule) := by
  have hown : (e.own.flatMap (s.findings o executable)).filter (·.rule = rule) = [] := by
    rw [List.filter_flatMap]
    refine List.flatMap_eq_nil_iff.mpr fun v hv => ?_
    exact filter_findings_of_hook hlocal s executable (Element.hook_of_mem_own hv).2
  rw [findingsAt, e.encounters_eq, List.flatMap_append, List.filter_append, hown, List.nil_append,
    Element.showings]
  cases e.container? with
  | none => rfl
  | some c =>
    simp only [List.flatMap_cons, List.filter_append, Container.visits, List.flatMap_map,
      List.filter_flatMap]
    have hcontainer : (s.findings o executable (.container e c)).filter (·.rule = rule) = [] :=
      filter_findings_of_hook hlocal s executable (by rw [Visit.hook]; decide)
    rw [hcontainer, List.nil_append]
    exact List.flatMap_congr fun f _ => filter_checkFlowElement hlocal ho s executable f c

theorem byRule_of_enabled (s : Scope) :
    (s.validate o).byRule rule = s.showings.flatMap (Showing.found rule) := by
  have hrelationships : (s.relationships.flatMap fun r =>
      s.findingsAt o false (.relationship r)).filter (·.rule = rule) = [] := by
    rw [List.filter_flatMap]
    exact List.flatMap_eq_nil_iff.mpr fun r _ => filter_findingsAt hlocal ho s false _
  rw [validate, Report.byRule_sorted (s.severity_of_mem_found o), found_eq, flatMap_walk,
    List.filter_append, hrelationships, List.append_nil, List.filter_flatMap, showings,
    List.flatMap_assoc]
  refine List.flatMap_congr fun r _ => ?_
  rw [List.filter_flatMap, Root.showings, Element.subtree, List.flatMap_assoc, List.flatMap_map]
  exact List.flatMap_congr fun p _ => filter_findingsAt hlocal ho s r.executable p.element

omit ho in
/-- **What such a rule reports** is found where flow elements are shown, in the order in which they
are. -/
theorem byRule_eq (s : Scope) (o : ValidationOptions) :
    (s.validate o).byRule rule = o.check rule (s.showings.flatMap (Showing.found rule)) := by
  cases ho : o.isEnabled rule with
  | true => rw [byRule_of_enabled hlocal ho, ValidationOptions.check, if_pos ho]
  | false => rw [byRule_of_not_enabled s ho, ValidationOptions.check, ho, if_neg Bool.false_ne_true]

omit ho in
/-- Whatever such a rule reports was found at something that is shown. -/
theorem exists_showing_of_mem_byRule {s : Scope} {d : Diagnostic}
    (hd : d ∈ (s.validate o).byRule rule) : ∃ x ∈ s.showings, d ∈ x.found rule := by
  rw [byRule_eq hlocal, ValidationOptions.check] at hd
  split at hd
  · exact List.mem_flatMap.mp hd
  · cases hd

end Local

/-! ## Every flow element is shown once -/

theorem mem_showings {s : Scope} {x : Showing} :
    x ∈ s.showings ↔ ∃ r ∈ s.roots, x.executable = r.executable ∧
      ∃ y ∈ (Element.root r).subtree, y.container? = some x.container ∧
        x.element ∈ x.container.elements := by
  have one (r : Root) (y : Element) : x ∈ y.showings r.executable ↔
      x.executable = r.executable ∧ y.container? = some x.container ∧
        x.element ∈ x.container.elements := by
    obtain ⟨executable, c, e⟩ := x
    unfold Element.showings
    cases y.container? with
    | none => simp
    | some k =>
      simp only [List.mem_map, Showing.mk.injEq, Option.some.injEq]
      constructor
      · rintro ⟨f, hf, rfl, rfl, rfl⟩
        exact ⟨rfl, rfl, hf⟩
      · rintro ⟨rfl, rfl, he⟩
        exact ⟨e, he, rfl, rfl, rfl⟩
  simp only [showings, Root.showings, List.mem_flatMap, one]
  constructor
  · rintro ⟨r, hr, y, hy, hexecutable, h⟩
    exact ⟨r, hr, hexecutable, y, hy, h⟩
  · rintro ⟨r, hr, hexecutable, y, hy, h⟩
    exact ⟨r, hr, y, hy, hexecutable, h⟩

/-- What stands in a container of the tree is shown. -/
theorem exists_showing_of_mem_placed {s : Scope} {owner : Option Id} {y : Element} {c : Container}
    {e : FlowElement} (hy : ⟨owner, y⟩ ∈ s.placed) (hc : y.container? = some c)
    (he : e ∈ c.elements) : ∃ executable, ⟨executable, c, e⟩ ∈ s.showings := by
  obtain ⟨top, htop, hy⟩ := mem_placed.mp hy
  rcases List.mem_append.mp htop with htop | htop
  · obtain ⟨r, hr, rfl⟩ := List.mem_map.mp htop
    have hsubtree : y ∈ (Element.root r).subtree := by
      rw [← Element.map_element_placed _ none]
      exact List.mem_map_of_mem hy
    exact ⟨r.executable, mem_showings.mpr ⟨r, hr, rfl, y, hsubtree, hc, he⟩⟩
  · obtain ⟨r, -, rfl⟩ := List.mem_map.mp htop
    cases List.mem_singleton.mp hy
    cases hc

theorem exists_placed_of_mem_showings {s : Scope} {x : Showing} (hx : x ∈ s.showings) :
    ∃ owner y, ⟨owner, y⟩ ∈ s.placed ∧ y.container? = some x.container ∧
      x.element ∈ x.container.elements := by
  obtain ⟨r, hr, -, y, hy, hc, he⟩ := mem_showings.mp hx
  obtain ⟨p, hp, rfl⟩ := List.mem_map.mp hy
  exact ⟨p.owner, p.element, mem_placed.mpr ⟨.root r, mem_topLevel_root.mpr hr, hp⟩, hc, he⟩

theorem map_subject_showings (s : Scope) :
    s.showings.map (fun x => Element.flowElement x.element) =
      (s.visits.filter (·.hook = .flowElement)).map Visit.subject := by
  have one (e : Element) (executable : Bool) :
      (e.showings executable).map (fun x => Element.flowElement x.element) =
        (e.encounters.filter (·.hook = .flowElement)).map Visit.subject := by
    have hown : e.own.filter (·.hook = .flowElement) = [] :=
      List.filter_eq_nil_iff.mpr fun v hv h => (Element.hook_of_mem_own hv).2 (of_decide_eq_true h)
    rw [e.encounters_eq, List.filter_append, hown, List.nil_append, Element.showings]
    cases e.container? with
    | none => rfl
    | some c =>
      rw [List.filter_cons_of_neg (by exact nofun), c.filter_visits, if_pos rfl,
        c.map_subject_visits, List.map_map]
      rfl
  have hrelationships : ((s.relationships.map Element.relationship).flatMap Element.visits).filter
      (·.hook = .flowElement) = [] := by
    rw [List.filter_flatMap, List.flatMap_map]
    exact List.flatMap_eq_nil_iff.mpr fun r _ => rfl
  rw [visits_eq_topLevel, topLevel, List.flatMap_append, List.filter_append, hrelationships,
    List.append_nil, List.flatMap_map, List.filter_flatMap, List.map_flatMap, showings,
    List.map_flatMap]
  refine List.flatMap_congr fun r _ => ?_
  rw [Root.showings, List.map_flatMap, Element.visits, List.filter_flatMap, List.map_flatMap]
  exact List.flatMap_congr fun e _ => one e r.executable

namespace Agrees

variable {s : Scope} (h : s.Agrees)

include h

theorem nodup_showings : (s.showings.map (·.element.id)).Nodup := by
  have hids : s.showings.map (·.element.id) =
      ((s.visits.filter (·.hook = .flowElement)).map Visit.subject).map Element.id := by
    rw [← map_subject_showings, List.map_map]
    rfl
  have hnodup : ((s.placed.map Placed.element).map Element.id).Nodup := by
    rw [List.map_map]
    exact h.records.nodup
  rw [hids, ((s.perm_map_subject_visits .flowElement).map Element.id).nodup_iff]
  exact hnodup.sublist (List.filter_sublist.map Element.id)

/-- **What such a rule reports of a flow element** is what it finds where the element is shown. -/
theorem filter_byRule {o : ValidationOptions} {rule : Rule} (hlocal : rule.isLocal = true)
    (ho : o.isEnabled rule = true) {x : Showing} (hx : x ∈ s.showings) :
    ((s.validate o).byRule rule).filter (·.element = x.element.id) = x.found rule := by
  rw [byRule_of_enabled hlocal ho]
  exact filter_flatMap_of_nodup h.nodup_showings hx fun y d => Showing.element_of_mem_found

end Agrees

/-! ## Immediate flows -/

variable {s : Scope} {o : ValidationOptions}

/-- Wherever a flow element stands, a walk shows it. -/
theorem exists_showing {r : Root} (hr : r ∈ s.roots) {e : FlowElement}
    (he : .flowElement e ∈ (Element.root r).subtree) :
    ∃ c, ⟨r.executable, c, e⟩ ∈ s.showings := by
  obtain ⟨p, hp, heq⟩ := List.mem_map.mp he
  rcases Element.owner_of_mem_placed hp with rfl | ⟨owner, y, hy, -, hchild⟩
  · cases heq
  · rw [heq] at hchild
    obtain ⟨c, hc, hmem⟩ := Element.mem_container_of_mem_children hchild
    exact ⟨c, mem_showings.mpr ⟨r, hr, rfl, y, List.mem_map_of_mem hy, hc, hmem⟩⟩

/-- **Whether flows must be immediate is decided process by process.** Of every sequence flow, in
whichever root element and however deep in sub-processes, the rule reports one problem if this root
element is an executable process and the flow is declared not to be immediate, and none otherwise.
It reports nothing else. What other root elements stand before or after does not matter. -/
theorem deferred_flows_reported (origin : Reachable s ∨ ∃ d, ofDocument d = .ok s)
    (ho : o.isEnabled .executableImmediacy = true) :
    (∀ r ∈ s.roots, ∀ f, .flowElement (.sequenceFlow f) ∈ (Element.root r).subtree →
      ((s.validate o).byRule .executableImmediacy).countP (·.element = f.id) =
        if r.executable = true ∧ f.isImmediate = some false then 1 else 0) ∧
      ∀ d ∈ (s.validate o).byRule .executableImmediacy, ∃ p f, .process p ∈ s.roots ∧
        p.isExecutable = some true ∧
        .flowElement (.sequenceFlow f) ∈ (Element.root (.process p)).subtree ∧
        f.isImmediate = some false ∧ d.element = f.id ∧ d.severity = .error ∧
        d.code = some .deferredFlow := by
  have hs := (reachable_of_origin origin).agrees
  constructor
  · intro r hr f hf
    obtain ⟨c, hshown⟩ := exists_showing hr hf
    have hfound : ((s.validate o).byRule .executableImmediacy).filter (·.element = f.id) =
        checkImmediacy r.executable f := hs.filter_byRule rfl ho hshown
    rw [List.countP_eq_length_filter, hfound, length_checkImmediacy]
  · intro d hd
    obtain ⟨⟨executable, c, e⟩, hx, hd⟩ := exists_showing_of_mem_byRule rfl hd
    obtain ⟨r, hr, rfl, y, hy, hc, he⟩ := mem_showings.mp hx
    obtain ⟨f, rfl, hd⟩ := Showing.exists_sequenceFlow_of_mem_found hd
    obtain ⟨hexecutable, hdeferred, hrest⟩ := of_mem_checkImmediacy hd
    obtain ⟨p, rfl, hp⟩ := Root.exists_process_of_executable hexecutable
    exact ⟨p, f, hr, hp, Element.child_mem_subtree hy (Element.flowElement_mem_children hc he),
      hdeferred, hrest⟩

end Scope

/-- A flow with nothing but its ends. -/
def SequenceFlow.bare (id source target : Id) : SequenceFlow :=
  ⟨⟨.bare id, none, []⟩, ⟨source⟩, ⟨target⟩, none, none⟩

/-- The same flow, declared not to be immediate. -/
def SequenceFlow.deferred (id source target : Id) : SequenceFlow :=
  { bare id source target with isImmediate := some false }

namespace Scope

/-- A flow that is not immediate in a sub-process of an executable process, and one in a process
after it that is not executable. -/
def deferring : Scope :=
  (Change.addFlowElement ⟨"q"⟩ (.sequenceFlow (.deferred ⟨"g"⟩ ⟨"b"⟩ ⟨"b"⟩))).after <|
    (Change.addRoot (.process { Process.bare ⟨"q"⟩ with isExecutable := some false })).after <|
    (Change.addFlowElement ⟨"sub"⟩ (.sequenceFlow (.deferred ⟨"f"⟩ ⟨"a"⟩ ⟨"a"⟩))).after <|
    (Change.addFlowElement ⟨"p"⟩ (.subProcess (.bare ⟨"sub"⟩) false [] [] [])).after <|
    (Change.addRoot (.process { Process.bare ⟨"p"⟩ with isExecutable := some true })).after <|
    fresh ⟨"Defs"⟩ "urn:t"

theorem deferring_reachable : Reachable deferring :=
  .after _ (.sequenceFlow _) nofun <| .after _ ⟨[], [], nofun, rfl⟩ nofun <|
    .after _ (.sequenceFlow _) nofun <|
    .after _ (.subProcess _ _ _ (List.forall_mem_nil _) (c := ⟨[], []⟩) rfl) nofun <|
    .after _ ⟨[], [], nofun, rfl⟩ nofun (.fresh _ _)

/-- Of the two flows one is reported. -/
theorem deferred_flows_reported_deferring :
    let found := (deferring.validate default).byRule .executableImmediacy
    found.countP (·.element = ⟨"f"⟩) = 1 ∧ found.countP (·.element = ⟨"g"⟩) = 0 ∧
      ∀ d ∈ found, d.severity = .error := by
  obtain ⟨each, all⟩ := deferred_flows_reported (o := default) (.inl deferring_reachable) rfl
  obtain ⟨p, q, f, g, hroots, hp, hq, hf, hg, hfid, hgid, hdeferred⟩ : ∃ p q f g,
      deferring.roots = [p, q] ∧ p.executable = true ∧ q.executable = false ∧
      (Element.root p).subtree[2]? = some (.flowElement (.sequenceFlow f)) ∧
      (Element.root q).subtree[1]? = some (.flowElement (.sequenceFlow g)) ∧
      f.id = ⟨"f"⟩ ∧ g.id = ⟨"g"⟩ ∧ f.isImmediate = some false :=
    ⟨_, _, _, _, rfl, rfl, rfl, rfl, rfl, rfl, rfl, rfl⟩
  have hpmem : p ∈ deferring.roots := by simp [hroots]
  have hqmem : q ∈ deferring.roots := by simp [hroots]
  refine ⟨?_, ?_, fun d hd => ?_⟩
  · rw [← hfid, each p hpmem f (List.mem_of_getElem? hf), if_pos ⟨hp, hdeferred⟩]
  · rw [← hgid, each q hqmem g (List.mem_of_getElem? hg), if_neg (by simp [hq])]
  · obtain ⟨-, -, -, -, -, -, -, hseverity, -⟩ := all d hd
    exact hseverity

end Scope

end BpmnModel
