import BpmnModel.Proofs.Resolution
import BpmnModel.Proofs.Succession

/-!
# Declared roles in a scope

Resolution and edits ask the table of kinds whether something may be used in a role, and then use
the part of the element that the role stands for.  Where the table and the element disagreed, what
was asked for would be passed over without a word.

* `Scope.Agrees.objection?_eq_none_iff` — what is accepted as an owner.
* `Scope.Agrees.containerAt?_path` — the walk down the owners of a container ends at its contents.
* `Scope.HonoursRoles` — whatever is used in a role shows it, and nothing that shows it is refused.
* `Scope.roles_exact` — this holds of every reachable scope, because the table is exact.
-/

namespace BpmnModel

namespace Scope

variable {s : Scope}

/-! ## Owners -/

/-- What is accepted as an owner is registered in the scope itself and meets the requirement. -/
theorem Agrees.objection?_eq_none_iff (h : s.Agrees) {id : Id} {requires : Requirement} :
    s.objection? id requires = none ↔
      ∃ e, s.get? id = some e ∧ requires.isMetBy e.kind = true := by
  constructor
  · intro ho
    obtain ⟨path, e, he, hid, hmet⟩ := h.exists_of_objection?_eq_none ho
    exact ⟨e, h.get?_eq_some_iff.mpr ⟨hid, path, he⟩, hmet⟩
  · rintro ⟨e, hget, hmet⟩
    obtain ⟨rfl, path, he⟩ := h.get?_eq_some_iff.mp hget
    exact h.objection?_eq_none he hmet

/-- **The walk down the owners of a container ends at its contents**, and at nothing for what is no
container. -/
theorem Agrees.containerAt?_path (h : s.Agrees) (id : Id) :
    s.containerAt? (s.registry.path id) = s.contents? id := by
  refine Option.ext fun c => ?_
  rw [h.contents?_eq_some_iff]
  constructor
  · intro hc
    obtain ⟨x, hx, hxc⟩ := exists_of_containerAt? hc
    obtain ⟨path, hpath, -, howners⟩ := h.exists_path id
    rw [Registry.path, hpath, Option.getD_some] at hx
    obtain ⟨e, rfl, he⟩ := howners hx.ne_nil
    have hlast := hx.getLast?
    rw [he.getLast?, Option.some.injEq] at hlast
    exact ⟨path, x, hx, hlast.symm, hxc⟩
  · rintro ⟨path, x, hx, rfl, hxc⟩
    rw [h.records.path_eq hx]
    exact h.containerAt?_eq hx hxc

/-! ## Roles -/

/-- What a scope does under a role goes by the structure of its elements. -/
structure HonoursRoles (s : Scope) : Prop where
  /-- What resolves under a role is what was found, and it shows the role. -/
  resolve : ∀ id c e, s.resolve id (.capability c) = .ok e ↔ s.lookup id = some e ∧ e.shows c = true
  /-- What is accepted as an owner in a role stands in the scope and shows the role. -/
  owner : ∀ id c, s.objection? id (.capability c) = none ↔
    ∃ e, s.get? id = some e ∧ e.shows c = true
  /-- What is accepted as a container is walked to, and its contents are there. -/
  container : ∀ id, s.objection? id .anyContainer = none ↔
    ∃ c, s.contents? id = some c ∧ s.containerAt? (s.registry.path id) = some c

theorem Agrees.honoursRoles (h : s.Agrees) : s.HonoursRoles := by
  have hmet (c : Capability) (e : Element) :
      (Requirement.capability c).isMetBy e.kind = e.shows c := e.kind_has c
  refine ⟨fun id c e => ?_, fun id c => ?_, fun id => ?_⟩
  · rw [resolve_eq_ok_iff, hmet]
  · simp only [h.objection?_eq_none_iff, hmet]
  · simp only [h.objection?_eq_none_iff, hmet, h.containerAt?_path, and_self]
    constructor
    · rintro ⟨e, hget, hshows⟩
      obtain ⟨c, hc⟩ := Option.isSome_iff_exists.mp hshows
      exact ⟨c, Option.bind_eq_some_iff.mpr ⟨e, hget, hc⟩⟩
    · rintro ⟨c, hc⟩
      obtain ⟨e, hget, hec⟩ := Option.bind_eq_some_iff.mp hc
      exact ⟨e, hget, Option.isSome_iff_exists.mpr ⟨c, hec⟩⟩

/-- **Declared roles match the structure.** The kind of an element declares exactly the roles that
the element shows: a container is what has contents, a flow node what lists flows, and so on for
every role; what has the role of a root element is one, and keeps its kind and its identifier as an
element. Hence what resolves under a role in a reachable scope has the part that the role stands
for: contents, listed flows, or a flow element. -/
theorem roles_exact :
    (∀ (e : Element) (c : Capability), e.kind.has c = true ↔ e.shows c = true) ∧
      (∀ e : Element, e.kind.has .rootElement = true ↔
        ∃ r, e = .root r ∧ e.kind = r.kind ∧ e.id = r.id) ∧
      ∀ s : Scope, Reachable s → s.HonoursRoles ∧ ∀ id e,
        (s.resolve id .anyContainer = .ok e → ∃ c, e.container? = some c) ∧
          (s.resolve id .anyFlowNode = .ok e → ∃ flows, e.edges? = some flows) ∧
          (s.resolve id .anyFlowElement = .ok e → ∃ f, e.flowElement? = some f) := by
  refine ⟨fun e c => by rw [e.kind_has], fun e => ⟨fun h => ?_, ?_⟩, fun s h => ?_⟩
  · obtain ⟨r, rfl⟩ := Element.eq_root_of_has h
    exact ⟨r, rfl, Element.kind_root r, Element.id_root r⟩
  · rintro ⟨r, rfl, -⟩
    exact (Element.root r).kind_has .rootElement
  · have honours := h.agrees.honoursRoles
    have hshows {id : Id} {e : Element} {c : Capability}
        (he : s.resolve id (.capability c) = .ok e) : e.shows c = true :=
      ((honours.resolve id c e).mp he).2
    exact ⟨honours, fun id e => ⟨fun he => Option.isSome_iff_exists.mp (hshows he),
      fun he => Option.isSome_iff_exists.mp (hshows he),
      fun he => Option.isSome_iff_exists.mp (hshows he)⟩⟩

/-- In a process with a sub-process, the sub-process is resolved as a container and its contents are
walked to.  The task in it is a flow node, but no container. -/
theorem roles_exact_nested :
    let task : FlowElement := .task (.bare ⟨"a"⟩) .plain
    let sub : FlowElement := .subProcess (.bare ⟨"sub"⟩) false [task] [] []
    let s := (Change.addFlowElement ⟨"p"⟩ sub).after
      ((Change.addRoot (.process (.bare ⟨"p"⟩))).after (fresh ⟨"Main"⟩ "urn:t"))
    Reachable s ∧
      s.resolve ⟨"sub"⟩ .anyContainer = .ok (.flowElement sub) ∧ sub.container?.isSome = true ∧
      s.containerAt? (s.registry.path ⟨"sub"⟩) = some ⟨[task], []⟩ ∧
      s.resolve ⟨"a"⟩ .anyFlowNode = .ok (.flowElement task) ∧ task.edges?.isSome = true ∧
      s.objection? ⟨"a"⟩ .anyContainer ≠ none := by
  intro task sub s
  have hinner : ∀ e ∈ [task], e.Assembled := List.forall_mem_singleton.mpr (.task _ _)
  have hs : Reachable s :=
    .after _ (.subProcess _ _ _ hinner (c := ⟨[task], []⟩) rfl) nofun <|
      .after _ ⟨[], [], nofun, rfl⟩ nofun (.fresh _ _)
  have hsub : s.lookup ⟨"sub"⟩ = some (.flowElement sub) :=
    (lookup_eq_some_iff hs).mpr ⟨s, rfl, ⟨some ⟨"p"⟩, rfl, List.mem_of_getElem? (i := 1) rfl⟩, rfl⟩
  have htask : s.lookup ⟨"a"⟩ = some (.flowElement task) :=
    (lookup_eq_some_iff hs).mpr
      ⟨s, rfl, ⟨some ⟨"sub"⟩, rfl, List.mem_of_getElem? (i := 2) rfl⟩, rfl⟩
  obtain ⟨-, -, hscope⟩ := roles_exact
  obtain ⟨honours, haccess⟩ := hscope s hs
  have hcontainer := (honours.resolve ⟨"sub"⟩ .container _).mpr ⟨hsub, rfl⟩
  have hnode := (honours.resolve ⟨"a"⟩ .flowNode _).mpr ⟨htask, rfl⟩
  refine ⟨hs, hcontainer, ?_, ?_, hnode, ?_, ?_⟩
  · exact Option.isSome_iff_exists.mpr ((haccess _ _).1 hcontainer)
  · obtain ⟨c, hc, hwalk⟩ := (honours.container ⟨"sub"⟩).mp rfl
    have hcontents : s.contents? ⟨"sub"⟩ = some ⟨[task], []⟩ := rfl
    rw [hwalk, ← hc, hcontents]
  · exact Option.isSome_iff_exists.mpr ((haccess _ _).2.1 hnode)
  · intro haccepted
    obtain ⟨e, he, hshows⟩ := (honours.owner ⟨"a"⟩ .container).mp haccepted
    have hget : s.get? ⟨"a"⟩ = some (.flowElement task) := rfl
    rw [hget, Option.some.injEq] at he
    subst he
    cases hshows

end Scope

end BpmnModel
