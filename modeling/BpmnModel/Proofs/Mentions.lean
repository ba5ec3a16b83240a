import BpmnModel.Proofs.CleanFlows
import BpmnModel.Proofs.Findings
import BpmnModel.Proofs.Inventory

/-!
# References in their places

* `Mention`, `Scope.mentions` — every reference together with its holder and its position there.
* `Scope.Reports`, `Scope.Explains` — what a diagnostic says of a mention that does not resolve.
* `Scope.mentions_diagnosed` — reference resolution reports exactly the mentions that do not resolve,
  each once and in order, and tells apart why.
-/

namespace BpmnModel

/-- A reference, with the element that holds it and its position among the references there. -/
structure Mention where
  holder : Id
  position : Nat
  reference : Reference
deriving DecidableEq

namespace Entry

/-- The references of an element in their places. -/
def mentions (e : Entry) : List Mention :=
  e.references.mapIdx fun n ref => ⟨e.id, n, ref⟩

theorem map_reference_mentions (e : Entry) : e.mentions.map Mention.reference = e.references := by
  refine List.ext_getElem? fun n => ?_
  simp only [mentions, List.getElem?_map, List.getElem?_mapIdx, Option.map_map]
  exact Option.map_id'

theorem mem_mentions {e : Entry} {m : Mention} :
    m ∈ e.mentions ↔ m.holder = e.id ∧ e.references[m.position]? = some m.reference := by
  obtain ⟨holder, position, reference⟩ := m
  simp only [mentions, List.mem_mapIdx, Mention.mk.injEq, List.getElem?_eq_some_iff]
  constructor
  · rintro ⟨n, hn, rfl, rfl, rfl⟩
    exact ⟨rfl, hn, rfl⟩
  · rintro ⟨rfl, hn, rfl⟩
    exact ⟨position, hn, rfl, rfl, rfl⟩

theorem nodup_mentions (e : Entry) : e.mentions.Nodup := by
  refine List.Nodup.of_map Mention.position ?_
  have hrange : e.mentions.map Mention.position = List.range e.references.length := by
    refine List.ext_getElem (by simp [mentions]) fun n _ _ => ?_
    simp [mentions]
  rw [hrange]
  exact List.nodup_range

end Entry

namespace Scope

variable {s : Scope} {o : ValidationOptions}

/-- Every reference of the scope in its place, in the order of the ownership tree. -/
def mentions (s : Scope) : List Mention := s.inventory.flatMap Entry.mentions

theorem mem_mentions (h : Reachable s) {m : Mention} :
    m ∈ s.mentions ↔
      ∃ e, s.get? m.holder = some e ∧ e.references[m.position]? = some m.reference := by
  simp only [mentions, inventory, List.mem_flatMap, List.mem_map, Entry.mem_mentions,
    h.agrees.get?_iff]
  constructor
  · rintro ⟨_, ⟨⟨owner, e⟩, hp, rfl⟩, hholder, href⟩
    exact ⟨e, ⟨hholder.symm, owner, hp⟩, href⟩
  · rintro ⟨e, ⟨hid, owner, hp⟩, href⟩
    exact ⟨_, ⟨⟨owner, e⟩, hp, rfl⟩, hid.symm, href⟩

/-- No reference is listed twice. -/
theorem nodup_mentions (h : Reachable s) : s.mentions.Nodup := by
  refine List.nodup_flatMap.mpr ⟨fun e _ => e.nodup_mentions, ?_⟩
  refine (List.pairwise_map.mp (nodup_inventory h)).imp fun {e f} hne m hm hm' => ?_
  exact hne ((Entry.mem_mentions.mp hm).1.symm.trans (Entry.mem_mentions.mp hm').1)

/-- The reference does not lead to what it has to lead to. -/
def fails (s : Scope) (m : Mention) : Bool :=
  match s.resolveReference m.reference with
  | .ok _ => false
  | .error _ => true

theorem fails_eq_false_iff {m : Mention} :
    s.fails m = false ↔ ∃ x, s.resolveReference m.reference = .ok x := by
  unfold fails
  cases s.resolveReference m.reference <;> simp

theorem fails_eq_true_iff {m : Mention} :
    s.fails m = true ↔ ∃ error, s.resolveReference m.reference = .error error := by
  unfold fails
  cases s.resolveReference m.reference <;> simp

/-! ## Their diagnostics -/

/-- The diagnostic is about the holder and gives the error of the resolution, with the code of such
errors. -/
structure Reports (s : Scope) (m : Mention) (d : Diagnostic) : Prop where
  element : d.element = m.holder
  error : s.resolveReference m.reference = .error d.error
  severity : d.severity = .error
  code : d.code = some (.ofError d.error)

end Scope

/-- A list whose elements are dropped or related to something, beside what they are related to. -/
theorem forall₂_filterMap_of_mem {α β : Type} {R : α → β → Prop} {p : α → Bool} {f : α → Option β}
    {xs : List α} (dropped : ∀ a ∈ xs, p a = false → f a = none)
    (kept : ∀ a ∈ xs, p a = true → ∃ b, f a = some b ∧ R a b) :
    List.Forall₂ R (xs.filter p) (xs.filterMap f) := by
  induction xs with
  | nil => exact .nil
  | cons a xs ih =>
    obtain ⟨hdropped, dropped⟩ := List.forall_mem_cons.mp dropped
    obtain ⟨hkept, kept⟩ := List.forall_mem_cons.mp kept
    cases hp : p a with
    | false =>
      rw [List.filter_cons_of_neg (by simp [hp]), List.filterMap_cons_none (hdropped hp)]
      exact ih dropped kept
    | true =>
      obtain ⟨b, hb, hab⟩ := hkept hp
      rw [List.filter_cons_of_pos hp, List.filterMap_cons_some hb]
      exact .cons hab (ih dropped kept)

namespace Scope

variable {s : Scope} {o : ValidationOptions}

/-- The check of an element reports the mentions there that do not resolve. -/
theorem forall₂_checkReferences (s : Scope) (p : Placed) :
    List.Forall₂ s.Reports (p.entry.mentions.filter s.fails) (s.checkReferences p.element) := by
  rw [checkReferences, show p.element.references = p.entry.references from rfl,
    ← p.entry.map_reference_mentions, List.filterMap_map]
  refine forall₂_filterMap_of_mem ?_ ?_
  · intro m _ hm
    obtain ⟨x, hx⟩ := fails_eq_false_iff.mp hm
    simp only [Function.comp_apply, hx]
  · intro m hmem hm
    obtain ⟨error, herror⟩ := fails_eq_true_iff.mp hm
    have hholder := (Entry.mem_mentions.mp hmem).1
    simp only [Function.comp_apply, herror]
    rcases resolve_eq_error_iff.mp herror with ⟨-, rfl⟩ | ⟨x, -, -, rfl⟩
    · exact ⟨_, rfl, hholder.symm, herror, rfl, rfl⟩
    · exact ⟨_, rfl, hholder.symm, herror, rfl, rfl⟩

/-- **Reference resolution reports exactly the mentions that do not resolve**, in order. -/
theorem forall₂_byRule (s : Scope) (ho : o.isEnabled .referenceResolution = true) :
    List.Forall₂ s.Reports (s.mentions.filter s.fails)
      ((s.validate o).byRule .referenceResolution) := by
  rw [byRule_references s ho, mentions, inventory, List.flatMap_map, List.filter_flatMap]
  induction s.placed with
  | nil => exact .nil
  | cons p ps ih => exact List.rel_append (s.forall₂_checkReferences p) ih

theorem byRule_eq_nil_iff (s : Scope) (ho : o.isEnabled .referenceResolution = true) :
    (s.validate o).byRule .referenceResolution = [] ↔
      ∀ p ∈ s.placed, ∀ ref ∈ p.element.references, ∃ x, s.resolve ref.id ref.requires = .ok x := by
  rw [byRule_references s ho, List.flatMap_eq_nil_iff]
  exact forall₂_congr fun p _ => checkReferences_eq_nil_iff

/-- The diagnostic also tells why the mention does not resolve: no scope along the search knows its
identifier, or what the first one knows is not of the required sort. -/
structure Explains (s : Scope) (m : Mention) (d : Diagnostic) : Prop extends s.Reports m d where
  dangling : d.code.map Code.text = some "E200" ↔
    ∀ t ∈ s.searched, t.registry.contains m.reference.id = false
  mismatch : d.code.map Code.text = some "E201" ↔
    ∃ t e, s.FirstFound m.reference.id t e ∧ m.reference.requires.isMetBy e.kind = false

theorem Reports.explains (h : Reachable s) {m : Mention} {d : Diagnostic} (hd : s.Reports m d) :
    s.Explains m d := by
  refine ⟨hd, ?_, ?_⟩
  · rw [hd.code, ← lookup_eq_none_iff h]
    rcases resolve_eq_error_iff.mp hd.error with ⟨hnone, herror⟩ | ⟨e, hsome, -, herror⟩
    · simp [herror, hnone, Code.ofError, Code.text]
    · simp [herror, hsome, Code.ofError, Code.text]
  · rw [hd.code, exists_comm]
    simp only [exists_and_right, ← lookup_eq_some_iff h]
    rcases resolve_eq_error_iff.mp hd.error with ⟨hnone, herror⟩ | ⟨e, hsome, hmet, herror⟩
    · simp [herror, hnone, Code.ofError, Code.text]
    · simp [herror, hsome, hmet, Code.ofError, Code.text]

/-- **Reference resolution is exact.** The walk meets the references of every element of the
ownership tree once, in the order of the tree. Of the references in their places, which are those of
the registered elements, none counted twice, reference resolution reports exactly those that do not
resolve, each by one diagnostic and in order. The diagnostic is about the holder and gives the error
of the resolution. It has the code E200 if no scope of the tree of imports registers the identifier,
and E201 if the first one that does has something there that does not meet the requirement. -/
theorem mentions_diagnosed (h : Reachable s) (ho : o.isEnabled .referenceResolution = true) :
    s.visits.filterMap Visit.element? = s.placed.map Placed.element ∧
      (∀ m, m ∈ s.mentions ↔
        ∃ e, s.get? m.holder = some e ∧ e.references[m.position]? = some m.reference) ∧
      s.mentions.Nodup ∧
      List.Forall₂ s.Explains (s.mentions.filter s.fails)
        ((s.validate o).byRule .referenceResolution) :=
  ⟨s.filterMap_visits, fun _ => mem_mentions h, nodup_mentions h,
    (s.forall₂_byRule ho).imp fun _ _ hd => hd.explains h⟩

/-- A flow that leads nowhere is reported once. -/
theorem mentions_diagnosed_nowhere :
    let s := (fresh ⟨"Defs"⟩ "urn:t").withFlow ⟨"b"⟩
    ∃ d, (s.validate default).byRule .referenceResolution = [d] ∧
      s.Explains ⟨⟨"f"⟩, 1, ⟨"targetRef", ⟨"b"⟩, .anyFlowNode⟩⟩ d := by
  intro s
  have hs : Reachable s := withFlow_reachable (.fresh _ _) _
  have hfails : s.mentions.filter s.fails =
      [⟨⟨"f"⟩, 1, ⟨"targetRef", ⟨"b"⟩, .anyFlowNode⟩⟩] := by decide +kernel
  obtain ⟨-, -, -, hreport⟩ := mentions_diagnosed hs (o := default) rfl
  rw [hfails] at hreport
  obtain ⟨d, rest, hd, hrest, hlist⟩ := List.forall₂_cons_left_iff.mp hreport
  cases hrest
  exact ⟨d, hlist, hd⟩

end Scope

end BpmnModel
