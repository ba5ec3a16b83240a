import BpmnModel.Proofs.Mirroring
import BpmnModel.Proofs.Steps

/-!
# Resolution through imports

* `Scope.searched` — a scope and the scopes behind its imports, in the order of the search.
* `Scope.lookup_eq` — a lookup gives the first answer that one of them has.
* `Scope.FirstFound` — an element together with the first scope that registers its identifier.
* `Scope.resolution` — which element a lookup finds in reachable scopes, and what a requirement
  makes of it.
-/

namespace BpmnModel

namespace Scope

/-! ## The order of the search -/

mutual

/-- The scope, then the scopes that its imports are bound to, each followed by those behind its own
imports. -/
def searched : Scope → List Scope
  | ⟨header, roots, relationships, imports, extensions, registry⟩ =>
    ⟨header, roots, relationships, imports, extensions, registry⟩ :: searchedImports imports

/-- The scopes behind imports, in the order of the imports. -/
def searchedImports : List Import → List Scope
  | [] => []
  | i :: is => searchedImport i ++ searchedImports is

/-- The scopes behind one import. -/
def searchedImport : Import → List Scope
  | .unbound _ => []
  | .bound _ _ scope => searched scope

end

theorem searchedImports_eq (is : List Import) :
    searchedImports is = (is.filterMap Import.scope?).flatMap searched := by
  induction is with
  | nil => rfl
  | cons i is ih =>
    rw [searchedImports, ih]
    cases i <;> rfl

/-- **The search is the walk in pre-order through bound imports.** -/
theorem searched_eq (s : Scope) :
    s.searched = s :: (s.imports.filterMap Import.scope?).flatMap searched := by
  rw [← searchedImports_eq]
  cases s
  rfl

theorem lookupImports_eq (id : Id) (is : List Import) :
    lookupImports id is = (is.filterMap Import.scope?).findSome? (lookup id) := by
  induction is with
  | nil => rfl
  | cons i is ih =>
    rw [lookupImports, ih]
    cases i with
    | unbound d => rfl
    | bound d stamp scope =>
      show _ = (scope :: is.filterMap Import.scope?).findSome? (lookup id)
      rw [lookupImport, List.findSome?_cons]
      cases lookup id scope <;> rfl

/-- A lookup asks the scope itself, then what its imports are bound to. -/
theorem lookup_step (s : Scope) (id : Id) :
    s.lookup id =
      (s.get? id).or ((s.imports.filterMap Import.scope?).findSome? (lookup id)) := by
  rw [← lookupImports_eq]
  obtain ⟨header, roots, relationships, imports, extensions, registry⟩ := s
  rw [lookup]
  cases get? ⟨header, roots, relationships, imports, extensions, registry⟩ id <;> rfl

mutual

/-- What holds of a scope if it holds of the scopes that its imports are bound to holds of all. -/
theorem imports_induction {P : Scope → Prop}
    (step : ∀ s : Scope, (∀ t ∈ s.imports.filterMap Import.scope?, P t) → P s) : ∀ s, P s
  | ⟨_, _, _, imports, _, _⟩ => step _ (forall_of_imports step imports)

theorem forall_of_imports {P : Scope → Prop}
    (step : ∀ s : Scope, (∀ t ∈ s.imports.filterMap Import.scope?, P t) → P s) :
    ∀ is : List Import, ∀ t ∈ is.filterMap Import.scope?, P t
  | [] => nofun
  | .unbound _ :: is => forall_of_imports step is
  | .bound _ _ s :: is =>
    List.forall_mem_cons.mpr ⟨imports_induction step s, forall_of_imports step is⟩

end

/-- **A lookup gives the first answer along the search.** -/
theorem lookup_eq (s : Scope) (id : Id) : s.lookup id = s.searched.findSome? (·.get? id) := by
  induction s using imports_induction with
  | step s ih =>
    rw [lookup_step, searched_eq, List.findSome?_cons]
    have himports : (s.imports.filterMap Import.scope?).findSome? (lookup id) =
        ((s.imports.filterMap Import.scope?).flatMap searched).findSome? (·.get? id) := by
      generalize s.imports.filterMap Import.scope? = scopes at ih
      induction scopes with
      | nil => rfl
      | cons t scopes hrest =>
        obtain ⟨ht, hscopes⟩ := List.forall_mem_cons.mp ih
        rw [List.flatMap_cons, List.findSome?_append, List.findSome?_cons, ht, hrest hscopes]
        cases t.searched.findSome? (·.get? id) <;> rfl
    rw [himports]
    cases s.get? id <;> rfl

end Scope

/-- **Every scope along the search from a reachable one is reachable.** -/
theorem Reachable.of_searched {s : Scope} (h : Reachable s) : ∀ t ∈ s.searched, Reachable t := by
  induction s using Scope.imports_induction with
  | step s ih =>
    rw [Scope.searched_eq, List.forall_mem_cons, List.forall_mem_flatMap]
    refine ⟨h, ?_⟩
    intro u hu
    obtain ⟨i, hi, hscope⟩ := List.mem_filterMap.mp hu
    exact ih u hu (h.of_import hi hscope)

namespace Scope

variable {s t : Scope}

/-! ## What is found -/

/-- The element stands in the tree of `t`, registered with its kind under the identifier, and `t` is
the first scope along the search that registers the identifier at all. -/
structure FirstFound (s : Scope) (id : Id) (t : Scope) (e : Element) : Prop where
  first : s.searched.find? (·.registry.contains id) = some t
  registered : ∃ o, t.registry.slot? id = some ⟨e.kind, o⟩ ∧ ⟨o, e⟩ ∈ t.placed
  id : e.id = id

/-- What a registry contains is found, with the kind that is recorded. -/
theorem Agrees.exists_get? (h : t.Agrees) {id : Id} (hc : t.registry.contains id = true) :
    ∃ e o, t.get? id = some e ∧ t.registry.slot? id = some ⟨e.kind, o⟩ ∧ ⟨o, e⟩ ∈ t.placed := by
  rcases h.slot?_eq_of_get? id with hfound | ⟨-, hs⟩
  · exact hfound
  · rw [Registry.contains, hs] at hc
    cases hc

theorem Agrees.get?_isSome (h : t.Agrees) (id : Id) :
    (t.get? id).isSome = t.registry.contains id := by
  rw [h.mirrors.contains]

/-- Where every registered identifier is found, the first answer is that of the first scope that
registers the identifier. -/
theorem lookup_eq_find? (h : Reachable s) (id : Id) :
    s.lookup id = (s.searched.find? (·.registry.contains id)).bind (·.get? id) := by
  rw [lookup_eq]
  have hall : ∀ t ∈ s.searched, t.Agrees := fun t ht => (h.of_searched t ht).agrees
  generalize s.searched = scopes at hall
  induction scopes with
  | nil => rfl
  | cons t scopes ih =>
    obtain ⟨ht, hscopes⟩ := List.forall_mem_cons.mp hall
    have hsome := ht.get?_isSome id
    rw [List.findSome?_cons, List.find?_cons]
    cases hc : t.registry.contains id with
    | true =>
      rw [hc] at hsome
      obtain ⟨e, he⟩ := Option.isSome_iff_exists.mp hsome
      rw [he, Option.bind_some, he]
    | false =>
      rw [hc, Option.isSome_eq_false_iff, Option.isNone_iff_eq_none] at hsome
      rw [hsome]
      exact ih hscopes

theorem lookup_eq_some_iff (h : Reachable s) {id : Id} {e : Element} :
    s.lookup id = some e ↔ ∃ t, s.FirstFound id t e := by
  rw [lookup_eq_find? h, Option.bind_eq_some_iff]
  constructor
  · rintro ⟨t, hfirst, hget⟩
    have ht := (h.of_searched t (List.mem_of_find?_eq_some hfirst)).agrees
    obtain ⟨x, o, hx, hslot, hmem⟩ := ht.exists_get? (by simpa using List.find?_some hfirst)
    rw [hget] at hx
    cases hx
    exact ⟨t, hfirst, ⟨o, hslot, hmem⟩, ((ht.get?_iff id e).mp hget).1⟩
  · rintro ⟨t, hfirst, ⟨o, -, hmem⟩, hid⟩
    have ht := (h.of_searched t (List.mem_of_find?_eq_some hfirst)).agrees
    exact ⟨t, hfirst, (ht.get?_iff id e).mpr ⟨hid, o, hmem⟩⟩

theorem lookup_eq_none_iff (h : Reachable s) {id : Id} :
    s.lookup id = none ↔ ∀ t ∈ s.searched, t.registry.contains id = false := by
  rw [lookup_eq, List.findSome?_eq_none_iff]
  refine forall₂_congr fun t ht => ?_
  rw [← (h.of_searched t ht).agrees.get?_isSome id, Option.isSome_eq_false_iff,
    Option.isNone_iff_eq_none]

/-- What a scope registers itself is found there, whatever its imports hold. -/
theorem FirstFound.of_contains (h : s.Agrees) {id : Id} (hc : s.registry.contains id = true) :
    ∃ e, s.FirstFound id s e := by
  obtain ⟨e, o, hget, hslot, hmem⟩ := h.exists_get? hc
  refine ⟨e, ?_, ⟨o, hslot, hmem⟩, ((h.get?_iff id e).mp hget).1⟩
  rw [searched_eq, List.find?_cons, hc]

/-! ## What a requirement makes of it -/

theorem resolve_eq_ok_iff {id : Id} {r : Requirement} {e : Element} :
    s.resolve id r = .ok e ↔ s.lookup id = some e ∧ r.isMetBy e.kind = true := by
  unfold resolve
  cases s.lookup id with
  | none => simp
  | some x =>
    simp only [Option.some.injEq]
    split
    · rename_i hmet
      constructor
      · rintro ⟨⟩
        exact ⟨rfl, hmet⟩
      · rintro ⟨rfl, -⟩
        rfl
    · rename_i hmet
      simp only [reduceCtorEq, false_iff, not_and]
      rintro rfl
      exact hmet

theorem resolve_eq_error_iff {id : Id} {r : Requirement} {refusal : ModelError} :
    s.resolve id r = .error refusal ↔
      (s.lookup id = none ∧ refusal = .danglingReference id r) ∨
        ∃ e, s.lookup id = some e ∧ r.isMetBy e.kind = false ∧
          refusal = .capabilityMismatch id e.kind r := by
  unfold resolve
  cases s.lookup id with
  | none =>
    simp only [Except.error.injEq, true_and, reduceCtorEq, false_and, exists_false, or_false]
    exact eq_comm
  | some x =>
    simp only [Option.some.injEq, exists_eq_left', reduceCtorEq, false_and, false_or]
    cases r.isMetBy x.kind with
    | true => simp
    | false =>
      simp only [Bool.false_eq_true, if_false, Except.error.injEq, true_and]
      exact eq_comm

/-- **Resolution through the tree of imports.** A lookup finds the element that is registered in the
first scope along the search that registers the identifier. A resolution gives exactly this element
if its kind meets the requirement; otherwise it reports a dangling reference if no scope registers
the identifier, and else the kind that was found. So what a scope registers itself hides what its
imports register, and no requirement changes which element is found. -/
theorem resolution (h : Reachable s) (id : Id) :
    (∀ e, s.lookup id = some e ↔ ∃ t, s.FirstFound id t e) ∧
      (∀ (r : Requirement) (e : Element),
        s.resolve id r = .ok e ↔ s.lookup id = some e ∧ r.isMetBy e.kind = true) ∧
      (∀ (r : Requirement) (refusal : ModelError), s.resolve id r = .error refusal ↔
        ((∀ t ∈ s.searched, t.registry.contains id = false) ∧
            refusal = .danglingReference id r) ∨
          ∃ t e, s.FirstFound id t e ∧ r.isMetBy e.kind = false ∧
            refusal = .capabilityMismatch id e.kind r) ∧
      (s.registry.contains id = true → ∃ e, s.FirstFound id s e) ∧
      ∀ r r' e e', s.resolve id r = .ok e → s.resolve id r' = .ok e' → e = e' := by
  refine ⟨fun e => lookup_eq_some_iff h, fun r e => resolve_eq_ok_iff, ?_,
    FirstFound.of_contains h.agrees, ?_⟩
  · intro r refusal
    rw [resolve_eq_error_iff, lookup_eq_none_iff h]
    refine or_congr_right ?_
    simp only [lookup_eq_some_iff h]
    constructor
    · rintro ⟨e, ⟨t, hfound⟩, hrest⟩
      exact ⟨t, e, hfound, hrest⟩
    · rintro ⟨t, e, hfound, hrest⟩
      exact ⟨e, ⟨t, hfound⟩, hrest⟩
  · intro r r' e e' he he'
    have hlookup := (resolve_eq_ok_iff.mp he).1
    rw [(resolve_eq_ok_iff.mp he').1, Option.some.injEq] at hlookup
    exact hlookup.symm

/-- A process behind an import of an import is found, but not as an interface. -/
theorem resolution_nested :
    let declaration : ImportDeclaration := ⟨.bpmn20, "urn:t", "t.bpmn"⟩
    let library := (Change.addRoot (.process (.bare ⟨"p"⟩))).after (fresh ⟨"Library"⟩ "urn:t")
    let middle := (Change.addImport (.bound declaration 0 library)).after (fresh ⟨"Middle"⟩ "urn:t")
    let s := (Change.addImport (.bound declaration 1 middle)).after (fresh ⟨"Main"⟩ "urn:t")
    s.resolve ⟨"p"⟩ (.kind .process) = .ok (.root (.process (.bare ⟨"p"⟩))) ∧
      s.resolve ⟨"p"⟩ (.kind .interface) =
        .error (.capabilityMismatch ⟨"p"⟩ .process (.kind .interface)) := by
  intro declaration library middle s
  have hlibrary : Reachable library :=
    .after _ ⟨[], [], nofun, rfl⟩ (by simp [Change.boundScope?]) (.fresh _ _)
  have hmiddle : Reachable middle :=
    .after _ trivial (by rintro t ⟨⟩; exact hlibrary) (.fresh _ _)
  have hs : Reachable s := .after _ trivial (by rintro t ⟨⟩; exact hmiddle) (.fresh _ _)
  have hfound : s.FirstFound ⟨"p"⟩ library (.root (.process (.bare ⟨"p"⟩))) :=
    ⟨rfl, ⟨none, rfl, mem_placed_of_topLevel (List.mem_singleton_self _)⟩, rfl⟩
  obtain ⟨hlookup, hok, herror, -⟩ := resolution hs ⟨"p"⟩
  exact ⟨(hok _ _).mpr ⟨(hlookup _).mpr ⟨library, hfound⟩, rfl⟩,
    (herror _ _).mpr (.inr ⟨library, _, hfound, rfl, rfl⟩)⟩

end Scope

end BpmnModel
