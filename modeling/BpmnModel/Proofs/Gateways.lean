import BpmnModel.Proofs.FlowRules

/-!
# Gateways

How many flows come to a gateway and how many leave it is counted in its container.  What a gateway
lists does not count.

* `Container.flowsTo`, `Container.flowsFrom` — the flows of a container at a node.
* `FlowElement.withoutEdges`, `Root.withoutEdges` — the same but for the flows listed at nodes.
* `Scope.byRule_eq_of_withoutEdges` — listed flows do not matter to rules on what a walk shows.
* `Scope.gateway_rules_exact` — what the two rules on gateways report.
-/

namespace BpmnModel

/-! ## Counting in the container -/

namespace Container

variable (c : Container) (node : Id)

/-- The sequence flows of the container that end at the node, in order. -/
def flowsTo : List SequenceFlow := c.sequenceFlows.filter (·.target.id = node)

/-- The sequence flows of the container that start at the node, in order. -/
def flowsFrom : List SequenceFlow := c.sequenceFlows.filter (·.source.id = node)

theorem degrees_eq :
    c.degrees node =
      ((c.flowsTo node).map SequenceFlow.id, (c.flowsFrom node).map SequenceFlow.id) :=
  rfl

end Container

/-- The diagnostic counts the flows at the gateway and points at each of those that are too many. -/
structure Diagnostic.Counts (d : Diagnostic) (g : Gateway) (c : Container) : Prop where
  severity : d.severity = .error
  error : d.error = .degreeConstraint g.base.id g.direction (c.flowsTo g.base.id).length
    (c.flowsFrom g.base.id).length
  labels : (d.labels.filter (!·.isPrimary)).map Label.element =
    ((match g.direction with
      | .converging => c.flowsFrom g.base.id
      | _ => c.flowsTo g.base.id).map SequenceFlow.id)

section Checks

variable (g : Gateway) (c : Container)

/-- A gateway that is to merge has several flows out, or one that is to split has several flows in:
one problem is found, and none otherwise. -/
theorem checkGatewayDegree_cases :
    if g.direction = .converging ∧ 1 < (c.flowsFrom g.base.id).length ∨
        g.direction = .diverging ∧ 1 < (c.flowsTo g.base.id).length then
      ∃ d, checkGatewayDegree g c = [d] ∧ d.Counts g c
    else checkGatewayDegree g c = [] := by
  have secondary (side : String) (flows : List SequenceFlow) :
      (((flows.map SequenceFlow.id).map fun f => (⟨f, s!"{side} flow", false⟩ : Label)).filter
        (!·.isPrimary)).map Label.element = flows.map SequenceFlow.id := by
    rw [List.filter_eq_self.mpr (List.forall_mem_map.mpr fun _ _ => rfl), List.map_map]
    exact List.map_id _
  simp only [checkGatewayDegree, Container.degrees_eq, List.length_map]
  cases hdirection : g.direction with
  | converging =>
    by_cases hmany : 1 < (c.flowsFrom g.base.id).length
    · rw [if_pos (.inl ⟨rfl, hmany⟩)]
      refine ⟨_, if_pos hmany, rfl, by rw [hdirection], ?_⟩
      simp only [hdirection]
      exact secondary _ _
    · rw [if_neg (by simp [hmany])]
      exact if_neg hmany
  | diverging =>
    by_cases hmany : 1 < (c.flowsTo g.base.id).length
    · rw [if_pos (.inr ⟨rfl, hmany⟩)]
      refine ⟨_, if_pos hmany, rfl, by rw [hdirection], ?_⟩
      simp only [hdirection]
      exact secondary _ _
    · rw [if_neg (by simp [hmany])]
      exact if_neg hmany
  | unspecified => simp
  | mixed => simp

/-- A mixed gateway does not merge or does not split: one warning is found, and none otherwise. -/
theorem checkMixedGateway_cases :
    if g.direction = .mixed ∧
        ¬(1 < (c.flowsTo g.base.id).length ∧ 1 < (c.flowsFrom g.base.id).length) then
      ∃ d, checkMixedGateway g c = [d] ∧ d.severity = .warning
    else checkMixedGateway g c = [] := by
  simp only [checkMixedGateway, Container.degrees_eq, List.length_map]
  split
  · exact ⟨_, rfl, rfl⟩
  · rfl

end Checks

/-! ## Without the flows listed at nodes -/

namespace FlowElement

mutual

/-- The flow element, and what it contains, without the flows listed at nodes. -/
def withoutEdges : FlowElement → FlowElement
  | task a w => task { a with edges := .none } w
  | callActivity a c => callActivity { a with edges := .none } c
  | subProcess a t es ls as => subProcess { a with edges := .none } t (allWithoutEdges es) ls as
  | gateway g => gateway { g with edges := .none }
  | event e => event { e with edges := .none }
  | sequenceFlow f => sequenceFlow f

/-- Several flow elements, in order. -/
def allWithoutEdges : List FlowElement → List FlowElement
  | [] => []
  | e :: es => withoutEdges e :: allWithoutEdges es

end

theorem allWithoutEdges_eq (es : List FlowElement) : allWithoutEdges es = es.map withoutEdges := by
  induction es with
  | nil => rfl
  | cons e es ih => rw [allWithoutEdges, ih, List.map_cons]

/-- No listed flow is left to leave out. -/
theorem withoutEdges_withoutEdges (e : FlowElement) :
    e.withoutEdges.withoutEdges = e.withoutEdges := by
  induction e using contents_induction with
  | step e ih =>
    cases e with
    | subProcess a t es ls as =>
      have hes : (es.map withoutEdges).map withoutEdges = es.map withoutEdges := by
        rw [List.map_map]
        exact List.map_congr_left fun e he => ih ⟨es, ls⟩ rfl e he
      simp only [withoutEdges, allWithoutEdges_eq, hes]
    | _ => rfl

theorem base_withoutEdges (e : FlowElement) : e.withoutEdges.base = e.base := by
  cases e <;> rfl

theorem sequenceFlow?_withoutEdges (e : FlowElement) :
    e.withoutEdges.sequenceFlow? = e.sequenceFlow? := by
  cases e <;> rfl

end FlowElement

namespace Container

/-- The contents without the flows listed at nodes. -/
def withoutEdges (c : Container) : Container :=
  ⟨c.elements.map FlowElement.withoutEdges, c.laneSets⟩

theorem sequenceFlows_withoutEdges (c : Container) :
    c.withoutEdges.sequenceFlows = c.sequenceFlows := by
  simp only [sequenceFlows, withoutEdges, List.filterMap_map, Function.comp_def,
    FlowElement.sequenceFlow?_withoutEdges]

theorem degrees_withoutEdges (c : Container) (node : Id) :
    c.withoutEdges.degrees node = c.degrees node := by
  rw [degrees, sequenceFlows_withoutEdges, degrees]

end Container

/-- The root element, and what it contains, without the flows listed at nodes. -/
def Root.withoutEdges : Root → Root
  | process p => process { p with container := p.container.withoutEdges }
  | r => r

theorem Root.withoutEdges_withoutEdges (r : Root) :
    r.withoutEdges.withoutEdges = r.withoutEdges := by
  cases r with
  | process p =>
    simp only [withoutEdges, Container.withoutEdges, List.map_map, Function.comp_def,
      FlowElement.withoutEdges_withoutEdges]
  | _ => rfl

theorem Root.executable_withoutEdges (r : Root) : r.withoutEdges.executable = r.executable := by
  cases r <;> rfl

namespace Element

/-- The element, and what it owns, without the flows listed at nodes. -/
def withoutEdges : Element → Element
  | root r => root r.withoutEdges
  | flowElement e => flowElement e.withoutEdges
  | e => e

theorem id_withoutEdges (e : Element) : e.withoutEdges.id = e.id := by
  cases e with
  | root r => cases r <;> rfl
  | flowElement e => exact congrArg (·.identity.id) e.base_withoutEdges
  | _ => rfl

theorem container?_withoutEdges (e : Element) :
    e.withoutEdges.container? = e.container?.map Container.withoutEdges := by
  cases e with
  | root r => cases r <;> rfl
  | flowElement e =>
    cases e with
    | subProcess a t es ls as =>
      show some _ = some _
      rw [FlowElement.allWithoutEdges_eq]
      rfl
    | _ => rfl
  | _ => rfl

theorem children_withoutEdges (e : Element) :
    e.withoutEdges.children = e.children.map withoutEdges := by
  have contents (c : Container) (artifacts : List Artifact) :
      c.withoutEdges.owned ++ artifacts.map artifact =
        (c.owned ++ artifacts.map artifact).map withoutEdges := by
    simp only [Container.owned, Container.withoutEdges, List.map_append, List.map_map,
      Function.comp_def, withoutEdges]
  cases e with
  | root r =>
    cases r with
    | process p => exact contents p.container p.artifacts
    | _ => simp [withoutEdges, Root.withoutEdges, children, Function.comp_def]
  | flowElement e =>
    cases e with
    | subProcess a t es ls as =>
      rw [withoutEdges, FlowElement.withoutEdges, FlowElement.allWithoutEdges_eq]
      exact contents ⟨es, ls⟩ as
    | _ => rfl
  | _ => simp [withoutEdges, children, Function.comp_def]

end Element

namespace Showing

/-- The flow element in its container, without the flows listed at nodes. -/
def withoutEdges (x : Showing) : Showing :=
  ⟨x.executable, x.container.withoutEdges, x.element.withoutEdges⟩

/-- **Nothing that is found depends on the flows listed at nodes.** -/
theorem found_withoutEdges (rule : Rule) (x : Showing) :
    x.withoutEdges.found rule = x.found rule := by
  obtain ⟨executable, c, e⟩ := x
  cases e with
  | gateway g =>
    cases rule with
    | gatewayDegree =>
      show checkGatewayDegree { g with edges := .none } c.withoutEdges = checkGatewayDegree g c
      simp only [checkGatewayDegree, c.degrees_withoutEdges]
    | mixedGateway =>
      show checkMixedGateway { g with edges := .none } c.withoutEdges = checkMixedGateway g c
      simp only [checkMixedGateway, c.degrees_withoutEdges]
    | _ => rfl
  | _ => cases rule <;> rfl

end Showing

theorem Element.showings_withoutEdges (executable : Bool) (e : Element) :
    e.withoutEdges.showings executable = (e.showings executable).map Showing.withoutEdges := by
  rw [showings, container?_withoutEdges, showings]
  cases e.container? with
  | none => rfl
  | some c =>
    show (c.elements.map FlowElement.withoutEdges).map _ = _
    rw [List.map_map, List.map_map]
    rfl

theorem Root.showings_withoutEdges (r : Root) :
    r.withoutEdges.showings = r.showings.map Showing.withoutEdges := by
  have hsubtree : (Element.root r.withoutEdges).subtree =
      (Element.root r).subtree.map Element.withoutEdges :=
    Element.subtree_map Element.id_withoutEdges Element.children_withoutEdges (.root r)
  rw [showings, hsubtree, executable_withoutEdges, List.flatMap_map, showings, List.map_flatMap]
  exact List.flatMap_congr fun e _ => e.showings_withoutEdges r.executable

namespace Scope

variable {s : Scope} {o : ValidationOptions}

/-- **Rules on what a walk shows report the same of scopes that differ in listed flows only.** -/
theorem byRule_eq_of_withoutEdges {t : Scope} {rule : Rule} (hlocal : rule.isLocal = true)
    (h : t.roots.map Root.withoutEdges = s.roots.map Root.withoutEdges) :
    (t.validate o).byRule rule = (s.validate o).byRule rule := by
  have erased (s : Scope) : s.showings.flatMap (Showing.found rule) =
      (s.roots.map Root.withoutEdges).flatMap fun r => r.showings.flatMap (Showing.found rule) := by
    rw [showings, List.flatMap_assoc, List.flatMap_map]
    refine List.flatMap_congr fun r _ => ?_
    rw [r.showings_withoutEdges, List.flatMap_map]
    exact List.flatMap_congr fun x _ => (x.found_withoutEdges rule).symm
  rw [byRule_eq hlocal, byRule_eq hlocal, erased t, erased s, h]

/-- **What the rules on gateways report.** Of a gateway the report says that flows are too many on
one side if the gateway is to merge and several flows of its container leave it, or is to split and
several come to it; this is said once, with both counts and a label for each flow on that side.  It
says once that a mixed gateway does not both merge and split, if this is so.  Nothing else is said,
and what nodes list as their flows does not matter. -/
theorem gateway_rules_exact (origin : Reachable s ∨ ∃ d, ofDocument d = .ok s) :
    (∀ owner x c g, ⟨owner, x⟩ ∈ s.placed → x.container? = some c → .gateway g ∈ c.elements →
      let said (rule : Rule) := ((s.validate o).byRule rule).filter (·.element = g.base.id)
      let flowsIn := (c.flowsTo g.base.id).length
      let flowsOut := (c.flowsFrom g.base.id).length
      (o.isEnabled .gatewayDegree = true →
        if g.direction = .converging ∧ 1 < flowsOut ∨ g.direction = .diverging ∧ 1 < flowsIn then
          ∃ d, said .gatewayDegree = [d] ∧ d.Counts g c
        else said .gatewayDegree = []) ∧
      (o.isEnabled .mixedGateway = true →
        if g.direction = .mixed ∧ ¬(1 < flowsIn ∧ 1 < flowsOut) then
          ∃ d, said .mixedGateway = [d] ∧ d.severity = .warning
        else said .mixedGateway = [])) ∧
    ∀ rule, rule = .gatewayDegree ∨ rule = .mixedGateway →
      (∀ d ∈ (s.validate o).byRule rule, ∃ owner x c g, ⟨owner, x⟩ ∈ s.placed ∧
        x.container? = some c ∧ .gateway g ∈ c.elements ∧ d.element = g.base.id) ∧
      ∀ t : Scope, t.roots.map Root.withoutEdges = s.roots.map Root.withoutEdges →
        (t.validate o).byRule rule = (s.validate o).byRule rule := by
  have hs := (reachable_of_origin origin).agrees
  constructor
  · intro owner x c g hx hc hg said flowsIn flowsOut
    obtain ⟨executable, hshown⟩ := exists_showing_of_mem_placed hx hc hg
    constructor
    · intro ho
      have hsaid : said .gatewayDegree = checkGatewayDegree g c := hs.filter_byRule rfl ho hshown
      rw [hsaid]
      exact checkGatewayDegree_cases g c
    · intro ho
      have hsaid : said .mixedGateway = checkMixedGateway g c := hs.filter_byRule rfl ho hshown
      rw [hsaid]
      exact checkMixedGateway_cases g c
  · intro rule hrule
    have hlocal : rule.isLocal = true := by rcases hrule with rfl | rfl <;> rfl
    refine ⟨fun d hd => ?_, fun t ht => byRule_eq_of_withoutEdges hlocal ht⟩
    obtain ⟨⟨executable, c, e⟩, hx, hd⟩ := exists_showing_of_mem_byRule hlocal hd
    obtain ⟨owner, y, hy, hc, he⟩ := exists_placed_of_mem_showings hx
    obtain ⟨g, rfl⟩ := Showing.exists_gateway_of_mem_found hrule hd
    exact ⟨owner, y, c, g, hy, hc, he, Showing.element_of_mem_found hd⟩

/-- A converging gateway in a sub-process, with a flow to itself and a flow to a task, and a flow of
the process around that names the gateway too. -/
def branching : Scope :=
  (Change.addFlowElement ⟨"p"⟩ (.sequenceFlow (.bare ⟨"far"⟩ ⟨"g"⟩ ⟨"g"⟩))).after <|
    (Change.addFlowElement ⟨"sub"⟩ (.sequenceFlow (.bare ⟨"on"⟩ ⟨"g"⟩ ⟨"a"⟩))).after <|
    (Change.addFlowElement ⟨"sub"⟩ (.sequenceFlow (.bare ⟨"loop"⟩ ⟨"g"⟩ ⟨"g"⟩))).after <|
    (Change.addFlowElement ⟨"sub"⟩
      (.gateway ⟨⟨.bare ⟨"g"⟩, none, []⟩, .none, .exclusive, .converging, none⟩)).after <|
    (Change.addFlowElement ⟨"sub"⟩ (.task (.bare ⟨"a"⟩) .plain)).after <|
    (Change.addFlowElement ⟨"p"⟩ (.subProcess (.bare ⟨"sub"⟩) false [] [] [])).after <|
    (Change.addRoot (.process (.bare ⟨"p"⟩))).after (fresh ⟨"Defs"⟩ "urn:t")

theorem branching_reachable : Reachable branching :=
  .after _ (.sequenceFlow _) nofun <| .after _ (.sequenceFlow _) nofun <|
    .after _ (.sequenceFlow _) nofun <| .after _ (.gateway _) nofun <| .after _ (.task _ _) nofun <|
    .after _ (.subProcess _ _ _ (List.forall_mem_nil _) (c := ⟨[], []⟩) rfl) nofun <|
    .after _ ⟨[], [], nofun, rfl⟩ nofun (.fresh _ _)

/-- One flow comes to the gateway and two leave it, and this is the only problem of this sort, also
where the gateway lists no flow. -/
theorem gateway_rules_exact_branching :
    let said (s : Scope) := ((s.validate default).byRule .gatewayDegree).filter (·.element = ⟨"g"⟩)
    (∃ d, said branching = [d] ∧ d.error = .degreeConstraint ⟨"g"⟩ .converging 1 2 ∧
      (d.labels.filter (!·.isPrimary)).map Label.element = [⟨"loop"⟩, ⟨"on"⟩]) ∧
    said { branching with roots := branching.roots.map Root.withoutEdges } = said branching := by
  obtain ⟨each, all⟩ := gateway_rules_exact (o := default) (.inl branching_reachable)
  let gateway : Gateway :=
    ⟨⟨.bare ⟨"g"⟩, none, []⟩, ⟨[⟨⟨"loop"⟩⟩], [⟨⟨"loop"⟩⟩, ⟨⟨"on"⟩⟩]⟩, .exclusive, .converging, none⟩
  have hgateway : (branching.containerAt? [⟨"p"⟩, ⟨"sub"⟩]).map (fun c =>
      ((c.find? ⟨"g"⟩).map (·.same (.gateway gateway)),
        (c.flowsTo ⟨"g"⟩).map SequenceFlow.id, (c.flowsFrom ⟨"g"⟩).map SequenceFlow.id)) =
      some (some true, [⟨"loop"⟩], [⟨"loop"⟩, ⟨"on"⟩]) := by decide +kernel
  obtain ⟨c, hc, hgateway⟩ := Option.map_eq_some_iff.mp hgateway
  obtain ⟨hfind, hflows⟩ := Prod.mk.inj hgateway
  obtain ⟨hin, hout⟩ := Prod.mk.inj hflows
  obtain ⟨e, he, hsame⟩ := Option.map_eq_some_iff.mp hfind
  obtain rfl : e = .gateway gateway := by
    cases e with
    | gateway g => rw [eq_of_beq hsame]
    | _ => cases hsame
  have hlengthIn : (c.flowsTo ⟨"g"⟩).length = 1 := by simpa using congrArg List.length hin
  have hlengthOut : (c.flowsFrom ⟨"g"⟩).length = 2 := by simpa using congrArg List.length hout
  obtain ⟨x, hpath, hx⟩ := exists_of_containerAt? hc
  obtain ⟨owner, howner⟩ := hpath.mem_placed
  have hsaid := (each owner x c gateway howner hx (List.mem_of_find?_eq_some he)).1 rfl
  have hmany : 1 < (c.flowsFrom gateway.base.id).length := by
    show 1 < (c.flowsFrom ⟨"g"⟩).length
    omega
  rw [if_pos (.inl ⟨rfl, hmany⟩)] at hsaid
  obtain ⟨d, hd, hcounts⟩ := hsaid
  constructor
  · refine ⟨d, hd, hcounts.error.trans ?_, hcounts.labels.trans hout⟩
    show ModelError.degreeConstraint ⟨"g"⟩ .converging (c.flowsTo ⟨"g"⟩).length
      (c.flowsFrom ⟨"g"⟩).length = _
    rw [hlengthIn, hlengthOut]
  · refine congrArg (List.filter _) ((all .gatewayDegree (.inl rfl)).2 _ ?_)
    rw [List.map_map]
    exact List.map_congr_left fun r _ => r.withoutEdges_withoutEdges

end Scope

end BpmnModel
