import BpmnModel.Proofs.Congruence

/-!
# Scopes that count as equal get the same verdict

The order of flow elements and root elements is the order of the findings, and that of the flows
which a finding on the degree of a gateway labels.  Nothing else depends on it.

* `Diagnostic.Alike` — equality of diagnostics up to the order of those labels.
* `Scope.rearranged_findingsAt` — the findings at equal elements are alike.
* `Scope.rearranged_diagnostics` — hence the reports on equal scopes are alike, up to order.
* `Scope.same_congruence` — equal scopes cannot be told apart.
-/

namespace BpmnModel

/-! ## Diagnostics up to the order of labels -/

/-- The diagnostics agree but for the order in which one on the degree of a gateway labels the
flows. -/
structure Diagnostic.Alike (d e : Diagnostic) : Prop where
  body : { d with labels := [] } = { e with labels := [] }
  labels : d.labels = e.labels ∨
    d.rule = .gatewayDegree ∧
      d.labels.filter (·.isPrimary) = e.labels.filter (·.isPrimary) ∧
      (d.labels.filter (!·.isPrimary)).Perm (e.labels.filter (!·.isPrimary))

theorem Diagnostic.Alike.refl (d : Diagnostic) : d.Alike d := ⟨rfl, .inl rfl⟩

theorem Rearranged.alike_of_eq {found found' : List Diagnostic} (h : found = found') :
    Rearranged Diagnostic.Alike found found' :=
  h ▸ .refl fun d _ => .refl d

/-! ## Checks in a container -/

namespace Container

variable {c d : Container}

theorem perm_sequenceFlows
    (h : Rearranged (fun e f => FlowElement.same e f = true) c.elements d.elements) :
    c.sequenceFlows.Perm d.sequenceFlows := by
  rw [sequenceFlows, sequenceFlows, List.filterMap_eq_flatMap_toList,
    List.filterMap_eq_flatMap_toList]
  refine h.perm_flatMap fun e _ f _ hef => ?_
  rcases FlowElement.same_cases hef with ⟨a, t, es, fs, ls, as, rfl, rfl, -⟩ | ⟨-, rfl⟩ <;> rfl

theorem isSome_find?
    (h : Rearranged (fun e f => FlowElement.same e f = true) c.elements d.elements) (id : Id) :
    (c.find? id).isSome = (d.find? id).isSome := by
  have hids : (c.elements.map FlowElement.id).Perm (d.elements.map FlowElement.id) :=
    h.perm_map fun _ _ _ _ => FlowElement.id_of_same
  have hmem (k : Container) : (k.find? id).isSome = true ↔ id ∈ k.elements.map FlowElement.id := by
    rw [find?, List.find?_isSome]
    simp
  rw [Bool.eq_iff_iff, hmem, hmem, hids.mem_iff]

theorem degrees_perm (h : c.sequenceFlows.Perm d.sequenceFlows) (node : Id) :
    (c.degrees node).1.Perm (d.degrees node).1 ∧ (c.degrees node).2.Perm (d.degrees node).2 :=
  ⟨(h.filter _).map _, (h.filter _).map _⟩

end Container

variable {c d : Container}

/-- The surplus flows are labelled in the order in which they stand in the container. -/
theorem rearranged_checkGatewayDegree (h : c.sequenceFlows.Perm d.sequenceFlows) (g : Gateway) :
    Rearranged Diagnostic.Alike (checkGatewayDegree g c) (checkGatewayDegree g d) := by
  obtain ⟨hin, hout⟩ := Container.degrees_perm h g.base.id
  have alike {surplus surplus' : List Id} (hp : surplus.Perm surplus') (primary : String)
      (error : ModelError) (message : String) (help : Option String) :
      Diagnostic.Alike
        ⟨.error, some .gatewayDegree, .gatewayDegree, g.base.id, error,
          ⟨g.base.id, primary, true⟩ :: surplus.map fun flow => ⟨flow, message, false⟩, help⟩
        ⟨.error, some .gatewayDegree, .gatewayDegree, g.base.id, error,
          ⟨g.base.id, primary, true⟩ :: surplus'.map fun flow => ⟨flow, message, false⟩, help⟩ := by
    refine ⟨rfl, .inr ⟨rfl, ?_, ?_⟩⟩
    · simp [List.filter_map, Function.comp_def]
    · simpa [List.filter_map, Function.comp_def] using hp.map _
  simp only [checkGatewayDegree, hin.length_eq, hout.length_eq]
  cases g.direction with
  | converging =>
    simp only
    split
    · exact .cons (alike hout _ _ _ _) .nil
    · exact .nil
  | diverging =>
    simp only
    split
    · exact .cons (alike hin _ _ _ _) .nil
    · exact .nil
  | unspecified => exact .nil
  | mixed => exact .nil

theorem checkMixedGateway_eq (h : c.sequenceFlows.Perm d.sequenceFlows) (g : Gateway) :
    checkMixedGateway g c = checkMixedGateway g d := by
  obtain ⟨hin, hout⟩ := Container.degrees_perm h g.base.id
  simp only [checkMixedGateway, hin.length_eq, hout.length_eq]

namespace Scope

variable (s : Scope) (o : ValidationOptions)

theorem checkEnd_eq {theEnd : Id} (h : (c.find? theEnd).isSome = (d.find? theEnd).isSome)
    (f : SequenceFlow) (role : String) : s.checkEnd f c role theEnd = s.checkEnd f d role theEnd := by
  unfold checkEnd
  cases hc : c.find? theEnd <;> cases hd : d.find? theEnd <;> simp [hc, hd] at h ⊢

/-- The findings at equal flow elements in equal containers are alike. -/
theorem rearranged_checkFlowElement
    (h : Rearranged (fun e f => FlowElement.same e f = true) c.elements d.elements)
    {e f : FlowElement} (hef : e.same f = true) (executable : Bool) :
    Rearranged Diagnostic.Alike (s.checkFlowElement o executable e c)
      (s.checkFlowElement o executable f d) := by
  have hflows := Container.perm_sequenceFlows h
  rcases FlowElement.same_cases hef with ⟨a, t, es, fs, ls, as, rfl, rfl, -⟩ | ⟨-, rfl⟩
  · exact .alike_of_eq rfl
  · cases e with
    | gateway g =>
      refine .append (.alike_of_eq rfl) (.append (.append ?_ ?_) (.alike_of_eq rfl))
      · unfold ValidationOptions.check
        split
        · exact rearranged_checkGatewayDegree hflows g
        · exact .nil
      · exact .alike_of_eq (by rw [checkMixedGateway_eq hflows])
    | sequenceFlow f =>
      refine .alike_of_eq ?_
      simp only [checkFlowElement, checkContainment,
        s.checkEnd_eq (Container.isSome_find? h f.source.id),
        s.checkEnd_eq (Container.isSome_find? h f.target.id)]
    | _ => exact .alike_of_eq rfl

/-! ## Reports -/

/-- **The findings at equal elements are alike.** -/
theorem rearranged_findingsAt {e f : Element} (h : e.same f = true)
    (hnd : (e.children.map Element.id).Nodup) (executable : Bool) :
    Rearranged Diagnostic.Alike (s.findingsAt o executable e) (s.findingsAt o executable f) := by
  have references : s.findings o executable (.references e) =
      s.findings o executable (.references f) := by
    simp only [findings, meet, checkReferences, Element.references_of_same h, Element.id_of_same h]
  have contents {c d : Container} (hk : e.container? = some c) (hc : c.same d = true) :
      Rearranged Diagnostic.Alike (c.visits.flatMap (s.findings o executable))
        (d.visits.flatMap (s.findings o executable)) := by
    have helements := ((Container.same_iff (Element.nodup_elements hnd hk)).mp hc).1
    rw [Container.visits, Container.visits, List.flatMap_map, List.flatMap_map]
    exact helements.flatMap fun x _ y _ hxy =>
      s.rearranged_checkFlowElement o helements hxy executable
  rcases Element.same_cases h with ⟨p, c, rfl, rfl, hc⟩ | ⟨a, t, es, fs, ls, as, rfl, rfl, hc⟩ |
    ⟨-, rfl⟩
  · exact .append (.alike_of_eq rfl) (.append (.alike_of_eq references) (contents rfl hc))
  · exact .append (.alike_of_eq references) (contents rfl hc)
  · exact .alike_of_eq rfl

end Scope

/-- A report holds what was found, errors first. -/
theorem Report.perm_sorted (found : List Diagnostic) : (sorted found).diagnostics.Perm found := by
  have hwarnings : (Report.mk found).warnings =
      found.filter fun d => !decide (d.severity = .error) := by
    refine List.filter_congr fun d _ => ?_
    cases d.severity <;> rfl
  rw [sorted, hwarnings]
  exact List.filter_append_perm _ found

namespace Scope

variable {a b : Scope}

/-- **The reports on scopes that count as equal are alike, up to order.** -/
theorem rearranged_diagnostics (ha : Reachable a) (hb : Reachable b) (h : a.same b = true)
    (o : ValidationOptions) :
    Rearranged Diagnostic.Alike (a.validate o).diagnostics (b.validate o).diagnostics := by
  have hanswers := answersLike ha hb h
  obtain ⟨-, hroots, hrelationships, -⟩ := (same_iff ha.agrees.nodup_roots).mp h
  have hfound : Rearranged Diagnostic.Alike (a.walk.flatMap fun x => a.findings o x.1 x.2)
      (b.walk.flatMap fun x => b.findings o x.1 x.2) := by
    rw [flatMap_walk, flatMap_walk, hrelationships]
    simp only [hanswers.findingsAt_eq]
    refine .append (hroots.flatMap fun r hr q _ hrq => ?_) (.alike_of_eq rfl)
    have hnd := ha.agrees.nodup_topLevel (mem_topLevel_root.mpr hr)
    rw [Root.executable_of_same hrq]
    refine (Element.rearranged_placed (e := .root r) (f := .root q) hrq none hnd).flatMap ?_
    intro p hp _ _ hpq
    exact b.rearranged_findingsAt o hpq.2 (Element.nodup_children_of_mem hnd hp) q.executable
  rw [diagnostics_validate, diagnostics_validate]
  exact .perm_trans (Report.perm_sorted _) (hfound.trans_perm (Report.perm_sorted _).symm)

/-- No query tells the scopes apart: the registries answer alike, what is found or resolved under an
identifier counts as equal, and so do the reports, up to the order of diagnostics. -/
structure Indistinguishable (a b : Scope) : Prop where
  kindOf? : ∀ id, a.kindOf? id = b.kindOf? id
  path? : ∀ id, a.registry.path? id = b.registry.path? id
  isTaken : ∀ id, a.registry.isTaken id = b.registry.isTaken id
  size : a.size = b.size
  get? : ∀ id, Option.Rel (fun x y => Element.same x y = true) (a.get? id) (b.get? id)
  resolve : ∀ id requires,
    (∃ x y, a.resolve id requires = .ok x ∧ b.resolve id requires = .ok y ∧ x.same y = true) ∨
      ∃ refusal, a.resolve id requires = .error refusal ∧ b.resolve id requires = .error refusal
  validate : ∀ o,
    Rearranged Diagnostic.Alike (a.validate o).diagnostics (b.validate o).diagnostics

theorem indistinguishable_of_same (ha : Reachable a) (hb : Reachable b) (h : a.same b = true) :
    a.Indistinguishable b := by
  have hmatches := matches_of_same ha.agrees h
  have hregistry := hmatches.registry_same ha.agrees hb.agrees
  have hkeys := ha.agrees.records.nodup_keys
  refine ⟨fun id => congrArg _ (hregistry.slot?_eq hkeys id), hregistry.path?_eq hkeys,
    hregistry.isTaken_eq hkeys, hregistry.size_eq, hmatches.rel_get? ha.agrees hb.agrees, ?_,
    rearranged_diagnostics ha hb h⟩
  intro id requires
  rcases (answersLike ha hb h).resolve_cases id requires with ⟨x, y, hx, hy⟩ | hrefused
  · refine .inl ⟨x, y, hx, hy, ?_⟩
    have hrel := rel_lookup ha hb h id
    rw [(resolve_eq_ok_iff.mp hx).1, (resolve_eq_ok_iff.mp hy).1] at hrel
    cases hrel with
    | some hsame => exact hsame
  · exact .inr hrefused

/-- **Equality of scopes is an observational congruence.** It compares headers, relationships,
imports and extensions as they are, root elements without regard to order, the contents of each
process and sub-process likewise, and does not look at the registry. Scopes that edits lead to and
that count as equal cannot be told apart. -/
theorem same_congruence (ha : Reachable a) (hb : Reachable b) :
    (a.same b = true ↔
        a.header = b.header ∧ Rearranged (fun r q => Root.same r q = true) a.roots b.roots ∧
          a.relationships = b.relationships ∧
          List.Forall₂ (fun i j => sameImport i j = true) a.imports b.imports ∧
          a.extensions = b.extensions) ∧
      (∀ o x c d, ⟨o, x⟩ ∈ a.placed → x.container? = some c →
        (c.same d = true ↔
          Rearranged (fun e f => FlowElement.same e f = true) c.elements d.elements ∧
            c.laneSets = d.laneSets)) ∧
      (∀ r r', same { a with registry := r } { b with registry := r' } = a.same b) ∧
      (a.same b = true → a.Indistinguishable b) := by
  refine ⟨same_iff ha.agrees.nodup_roots, fun o x c d hx hc => ?_, ?_,
    indistinguishable_of_same ha hb⟩
  · exact Container.same_iff (Element.nodup_elements (ha.agrees.nodup_children hx) hc)
  · intro r r'
    obtain ⟨header, roots, relationships, imports, extensions, registry⟩ := a
    rfl

/-- A process in which two flows, added in this order, lead to a diverging gateway that lists `f`
and `g`. -/
def diverging (first second : Id) : Scope :=
  let flow (id : Id) : Change :=
    .addFlowElement ⟨"p"⟩ (.sequenceFlow ⟨⟨.bare id, none, []⟩, ⟨⟨"a"⟩⟩, ⟨⟨"d"⟩⟩, none, none⟩)
  let gateway : Gateway :=
    ⟨⟨.bare ⟨"d"⟩, none, []⟩, ⟨[⟨⟨"f"⟩⟩, ⟨⟨"g"⟩⟩], []⟩, .exclusive, .diverging, none⟩
  (flow second).after <| (flow first).after <|
    (Change.addFlowElement ⟨"p"⟩ (.gateway gateway)).after <|
      (Change.addRoot (.process (.bare ⟨"p"⟩))).after (fresh ⟨"Defs"⟩ "urn:t")

theorem diverging_reachable (first second : Id) : Reachable (diverging first second) :=
  .after _ (.sequenceFlow _) nofun <| .after _ (.sequenceFlow _) nofun <|
    .after _ (.gateway _) nofun <| .after _ ⟨[], [], nofun, rfl⟩ nofun (.fresh _ _)

/-- The order of the flows shows in the reports, but only as the order of findings and labels. -/
theorem same_congruence_diverging :
    (diverging ⟨"f"⟩ ⟨"g"⟩).Indistinguishable (diverging ⟨"g"⟩ ⟨"f"⟩) ∧
      ((diverging ⟨"f"⟩ ⟨"g"⟩).validate default).diagnostics ≠
        ((diverging ⟨"g"⟩ ⟨"f"⟩).validate default).diagnostics :=
  ⟨(same_congruence (diverging_reachable _ _) (diverging_reachable _ _)).2.2.2 (by decide +kernel),
    by decide +kernel⟩

end Scope

end BpmnModel
