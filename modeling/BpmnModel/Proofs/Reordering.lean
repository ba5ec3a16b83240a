import BpmnModel.Document.Scope
import BpmnModel.Proofs.Rearrangement
import BpmnModel.Proofs.Registration
import BpmnModel.Proofs.Tally

/-!
# Nodes that differ in the order of what they hold

Attributes are looked up by name, and the children of a node go to several lists. Their order should
matter only where it decides the order of one such list.

* `Family` — the children of a node that go to one list.
* `Family.Agree` — lists that have the same items of each family, in the same order.
* `Node.ReorderedBy`, `Node.Reordered` — the same tree, but for the order of attributes and of
  children of different families, at every depth.
* `Node.ReorderedBy.fields_eq`, `Node.ReorderedBy.checks_iff` — what readers take from attributes,
  and what they ask of every node.
* `Node.ReorderedBy.agree_of_mapM` — children are read to lists that agree.
* `Node.ReorderedBy.exists_mapM_iff`, `Node.ReorderedBy.mapM_iff` — what is made of the items is
  made of both trees.
-/

namespace BpmnModel

@[simp]
theorem throw_eq_error {ε α : Type} (e : ε) : (throw e : Except ε α) = .error e := rfl

/-! ## Families -/

/-- The labels of root elements. -/
def Root.labels : List String :=
  ["process", "collaboration", "globalConversation", "interface", "endPoint", "message",
    "itemDefinition", "error", "escalation", "resource", "category", "correlationProperty"]

/-- Whether the label is that of a root element. -/
def Root.isLabel (label : String) : Bool := labels.contains label

/-- Whether the label is that of an activity. -/
def Activity.isLabel (label : String) : Bool :=
  (TaskWork.form? label).isSome || label = "callActivity" || label = "subProcess"

/-- Whether the label is that of a flow element. -/
def FlowElement.isLabel (label : String) : Bool :=
  label = "sequenceFlow" || (EventPosition.form? label).isSome ||
    (GatewayType.ofLabel? label).isSome || Activity.isLabel label

/-- Whether the label is that of a loop. -/
def Loop.isLabel (label : String) : Bool :=
  label = "standardLoopCharacteristics" || label = "multiInstanceLoopCharacteristics"

/-- The labels of event definitions. -/
def EventDefinition.labels : List String :=
  ["messageEventDefinition", "errorEventDefinition", "escalationEventDefinition",
    "terminateEventDefinition"]

/-- Whether the label is that of an event definition. -/
def EventDefinition.isLabel (label : String) : Bool := labels.contains label

/-- Children that keep their order among each other: those that go to one list, and else those with
one label. -/
inductive Family where
  | roots
  | flowElements
  | artifacts
  | loops
  | conversationNodes
  | eventDefinitions
  | labelled (label : String)
deriving DecidableEq

namespace Family

/-- The family of children below a scope, a process, an activity or a collaboration. Elsewhere
children are told apart by their labels. -/
def ofContainer (parent label : String) : Family :=
  let isContainer := parent = "process" || Activity.isLabel parent
  let isCollaboration := parent = "collaboration" || parent = "globalConversation"
  if isContainer && FlowElement.isLabel label then flowElements
  else if (isContainer || isCollaboration) && (Artifact.reader? label).isSome then artifacts
  else if isContainer && Loop.isLabel label then loops
  else if isCollaboration && ConversationNode.isLabel label then conversationNodes
  else if parent = Header.label && Root.isLabel label then roots
  else labelled label

/-- The family of children with this label below a node with the label `parent`: events and
sub-conversations too keep children of several labels in one list. -/
def of (parent label : String) : Family :=
  if (EventPosition.form? parent).isSome && EventDefinition.isLabel label then eventDefinitions
  else if parent = "subConversation" && ConversationNode.isLabel label then conversationNodes
  else ofContainer parent label

variable {parent label : String}

theorem of_flowElement (hparent : parent ∈ ["process", "subProcess"])
    (hlabel : FlowElement.isLabel label = true) : of parent label = flowElements := by
  have hall : ∀ p ∈ ["process", "subProcess"], (EventPosition.form? p).isSome = false ∧
      p ≠ "subConversation" ∧ (p = "process" ∨ Activity.isLabel p = true) := by decide
  obtain ⟨hevent, hconversation, hcontainer⟩ := hall parent hparent
  simp [of, ofContainer, hlabel, hevent, hconversation, hcontainer]

theorem of_artifact {read : Node → Reading Artifact}
    (hparent : parent ∈ ["process", "subProcess", "collaboration", "globalConversation"])
    (hread : Artifact.reader? label = some read) : of parent label = artifacts := by
  have hlabel : label ∈ ["association", "group", "textAnnotation"] := by
    unfold Artifact.reader? at hread
    split at hread <;> first | contradiction | simp
  have hall : ∀ p ∈ ["process", "subProcess", "collaboration", "globalConversation"],
      ∀ l ∈ ["association", "group", "textAnnotation"], of p l = artifacts := by decide
  exact hall parent hparent label hlabel

theorem of_loop (hparent : Activity.isLabel parent = true) (hlabel : Loop.isLabel label = true) :
    of parent label = loops := by
  have hall : ∀ l ∈ ["standardLoopCharacteristics", "multiInstanceLoopCharacteristics"],
      EventDefinition.isLabel l = false ∧ ConversationNode.isLabel l = false ∧
        FlowElement.isLabel l = false ∧ (Artifact.reader? l).isSome = false := by decide
  obtain ⟨hdefinition, hconversation, hflow, hartifact⟩ :=
    hall label (by simpa [Loop.isLabel] using hlabel)
  simp [of, ofContainer, hparent, hlabel, hdefinition, hconversation, hflow, hartifact]

theorem of_conversation
    (hparent : parent ∈ ["collaboration", "globalConversation", "subConversation"])
    (hlabel : ConversationNode.isLabel label = true) : of parent label = conversationNodes := by
  have hall : ∀ p ∈ ["collaboration", "globalConversation", "subConversation"],
      ∀ l ∈ ["conversation", "subConversation", "callConversation"],
        of p l = conversationNodes := by decide
  exact hall parent hparent label (by simpa [ConversationNode.isLabel, or_assoc] using hlabel)

theorem of_eventDefinition {form : List String × (Node → Reading EventPosition)}
    (hform : EventPosition.form? parent = some form)
    (hlabel : EventDefinition.isLabel label = true) : of parent label = eventDefinitions := by
  have hparent : parent ∈ ["startEvent", "intermediateCatchEvent", "intermediateThrowEvent",
      "endEvent", "boundaryEvent"] := by
    unfold EventPosition.form? at hform
    split at hform <;> first | contradiction | simp
  have hall : ∀ p ∈ ["startEvent", "intermediateCatchEvent", "intermediateThrowEvent", "endEvent",
      "boundaryEvent"], ∀ l ∈ EventDefinition.labels, of p l = eventDefinitions := by decide
  exact hall parent hparent label (List.contains_iff_mem.mp hlabel)

theorem of_root (hlabel : Root.isLabel label = true) : of Header.label label = roots := by
  have hall : ∀ l ∈ Root.labels, of Header.label l = roots := by decide
  exact hall label (List.contains_iff_mem.mp hlabel)

variable {α β : Type} {tag : α → Family} {xs ys : List α}

/-- The lists have the same items of each family, in the same order. -/
def Agree (tag : α → Family) (xs ys : List α) : Prop :=
  ∀ f, xs.filter (tag · = f) = ys.filter (tag · = f)

namespace Agree

theorem perm (h : Agree tag xs ys) : xs.Perm ys := by
  have hsame : Rearranged Eq xs ys := .of_forall₂_filter tag tag fun f => by
    rw [h]
    exact List.forall₂_refl _
  exact Multiset.coe_eq_coe.mp (Multiset.rel_eq.mp hsame)

/-- What only members of one family have stands in one order. -/
theorem filterMap_eq (h : Agree tag xs ys) (key : α → Option β) (f : Family)
    (hkey : ∀ x y, key x = some y → tag x = f) : xs.filterMap key = ys.filterMap key := by
  have hfamily (zs : List α) : (zs.filter (tag · = f)).filterMap key = zs.filterMap key := by
    rw [List.filterMap_filter]
    refine List.filterMap_congr fun z _ => ?_
    cases hz : key z with
    | none => simp
    | some y => simp [hkey z y hz]
  rw [← hfamily xs, ← hfamily ys, h]

/-- A fold whose steps commute for items of different families gives one result. -/
theorem foldr_eq {σ : Type} (h : Agree tag xs ys) {step : α → σ → σ}
    (hcomm : ∀ x y s, tag x ≠ tag y → step x (step y s) = step y (step x s)) (s : σ) :
    xs.foldr step s = ys.foldr step s := by
  induction xs generalizing ys with
  | nil => rw [h.perm.nil_eq]
  | cons x xs ih =>
    -- the first item of its family can be moved to the front of the other list
    have hx := h (tag x)
    rw [List.filter_cons_of_pos (by simp), eq_comm, List.filter_eq_cons_iff] at hx
    obtain ⟨before, after, rfl, hbefore, -, hafter⟩ := hx
    have hmove : (before ++ x :: after).foldr step s = step x ((before ++ after).foldr step s) := by
      clear h hafter
      induction before with
      | nil => rfl
      | cons b before ihb =>
        obtain ⟨hb, hbefore⟩ := List.forall_mem_cons.mp hbefore
        simp only [List.cons_append, List.foldr_cons, ihb hbefore]
        exact hcomm b x _ (by simpa using hb)
    rw [hmove, List.foldr_cons, ih (fun f => ?_)]
    by_cases hf : tag x = f
    · subst hf
      rw [List.filter_append, hafter, List.filter_eq_nil_iff.mpr hbefore, List.nil_append]
    · simpa [List.filter_append, hf] using h f

theorem foldl_eq {σ : Type} (h : Agree tag xs ys) {step : σ → α → σ}
    (hcomm : ∀ s x y, tag x ≠ tag y → step (step s x) y = step (step s y) x) (s : σ) :
    xs.foldl step s = ys.foldl step s := by
  rw [List.foldl_eq_foldr_reverse, List.foldl_eq_foldr_reverse]
  have hreverse : Agree tag xs.reverse ys.reverse := fun f => by
    rw [List.filter_reverse, List.filter_reverse, h]
  exact hreverse.foldr_eq (fun x y s hne => hcomm s y x hne.symm) s

theorem eq_of_const {f : Family} (h : Agree (fun _ => f) xs ys) : xs = ys := by
  simpa using h f

end Agree

end Family

namespace Node

/-- The nodes agree but for the order of attributes and of children of different families, and so do
their children, family by family. -/
inductive ReorderedBy (family : String → String → Family) : Node → Node → Prop where
  | intro {n n' : Node} (label : n'.label = n.label)
    (attributes : n.attributes.entries.Perm n'.attributes.entries)
    (children : ∀ f : Family, List.Forall₂ (ReorderedBy family)
      (n.children.filter (family n.label ·.label = f))
      (n'.children.filter (family n.label ·.label = f))) :
    ReorderedBy family n n'

/-- The nodes agree but for the order of attributes and of children that go to different lists. -/
abbrev Reordered : Node → Node → Prop := ReorderedBy Family.of

variable {α : Type} {family : String → String → Family} {n n' : Node}

/-! ## Lists that are read alike -/

theorem exists_mapM_iff_forall {read : Node → Reading α} {cs : List Node} :
    (∃ xs, cs.mapM read = .ok xs) ↔ ∀ c ∈ cs, ∃ x, read c = .ok x := by
  constructor
  · exact fun ⟨_, hxs⟩ => forall_of_forall₂ (forall₂_of_mapM hxs) fun x _ hx => ⟨x, hx.2⟩
  · intro h
    induction cs with
    | nil => exact ⟨[], rfl⟩
    | cons c cs ih =>
      obtain ⟨x, hx⟩ := h c List.mem_cons_self
      obtain ⟨xs, hxs⟩ := ih fun d hd => h d (List.mem_cons_of_mem c hd)
      exact ⟨x :: xs, by simp [List.mapM_cons, hx, hxs]⟩

/-- Nodes that are read alike, item by item, are read to the same items. -/
theorem eq_of_forall₂ {read read' : Node → Reading α} {cs cs' : List Node} {xs ys : List α}
    (hxs : List.Forall₂ (fun x c => read c = .ok x) xs cs)
    (h : List.Forall₂ (fun c c' => ∀ x, read' c' = .ok x ↔ read c = .ok x) cs cs')
    (hys : List.Forall₂ (fun y c' => read' c' = .ok y) ys cs') : xs = ys := by
  induction h generalizing xs ys with
  | nil =>
    cases hxs
    cases hys
    rfl
  | cons hc _ ih =>
    obtain _ | ⟨hx, hxs⟩ := hxs
    obtain _ | ⟨hy, hys⟩ := hys
    have heq := ((hc _).mpr hx).symm.trans hy
    rw [Except.ok.inj heq, ih hxs hys]

namespace ReorderedBy

/-! ## Attributes -/

theorem label_eq (h : n.ReorderedBy family n') : n'.label = n.label := by
  obtain ⟨hlabel, -, -⟩ := h
  exact hlabel

theorem attribute?_eq (h : n.ReorderedBy family n') (a : String) :
    n'.attribute? a = n.attribute? a := by
  obtain ⟨-, hperm, -⟩ := h
  exact (lookup_eq_of_perm hperm n.attributes.nodup a).symm

theorem closed_iff (h : n.ReorderedBy family n') (known : List String) :
    n'.Closed known ↔ n.Closed known := by
  obtain ⟨-, hperm, -⟩ := h
  have hnames : n.attributes.names.Perm n'.attributes.names := hperm.map Prod.fst
  exact ⟨fun hc a ha => hc a (hnames.mem_iff.mp ha), fun hc a ha => hc a (hnames.mem_iff.mpr ha)⟩

/-! ## Children -/

theorem symm (h : n.ReorderedBy family n') : n'.ReorderedBy family n := by
  induction n using children_induction generalizing n' with
  | step n ih =>
    obtain ⟨hlabel, hattributes, hchildren⟩ := h
    refine ⟨hlabel.symm, hattributes.symm, fun f => ?_⟩
    rw [hlabel]
    have hmem : ∀ c ∈ n.children.filter (family n.label ·.label = f), c ∈ n.children :=
      fun c => List.mem_of_mem_filter
    have hpairs := (List.forall₂_and_left ..).mpr ⟨hmem, hchildren f⟩
    exact (hpairs.imp fun c c' hc => ih c hc.1 hc.2).flip

theorem refl (family : String → String → Family) (n : Node) : n.ReorderedBy family n := by
  induction n using children_induction with
  | step n ih =>
    refine ⟨rfl, .refl _, fun f => List.forall₂_same.mpr fun c hc => ?_⟩
    exact ih c (List.mem_of_mem_filter hc)

/-- It is enough to look at families that occur. -/
theorem of_families (fs : List Family) (hlabel : n'.label = n.label)
    (hattributes : n.attributes.entries.Perm n'.attributes.entries)
    (hfs : ∀ c ∈ n.children ++ n'.children, family n.label c.label ∈ fs)
    (h : ∀ f ∈ fs, List.Forall₂ (ReorderedBy family)
      (n.children.filter (family n.label ·.label = f))
      (n'.children.filter (family n.label ·.label = f))) : n.ReorderedBy family n' := by
  refine ⟨hlabel, hattributes, fun f => ?_⟩
  by_cases hf : f ∈ fs
  · exact h f hf
  · rw [List.forall_mem_append] at hfs
    have hnil {cs : List Node} (hcs : ∀ c ∈ cs, family n.label c.label ∈ fs) :
        cs.filter (family n.label ·.label = f) = [] := by
      rw [List.filter_eq_nil_iff]
      intro c hc heq
      exact hf (of_decide_eq_true heq ▸ hcs c hc)
    rw [hnil hfs.1, hnil hfs.2]
    exact .nil

theorem of_child {c c' : Node} {label : String} {attributes : Attributes}
    (h : c.ReorderedBy family c') :
    ReorderedBy family ⟨label, attributes, [c]⟩ ⟨label, attributes, [c']⟩ := by
  refine of_families [family label c.label] rfl (.refl _) ?_ ?_
  · simp [h.label_eq]
  · simpa [h.label_eq] using h

/-- Two children of different families may come in either order. -/
theorem swap {c d : Node} {label : String} {attributes : Attributes}
    (hne : family label c.label ≠ family label d.label) :
    ReorderedBy family ⟨label, attributes, [c, d]⟩ ⟨label, attributes, [d, c]⟩ := by
  refine of_families [family label c.label, family label d.label] rfl (.refl _) ?_ ?_
  · simp
  · simp [hne, hne.symm, refl]

/-- The children of one node are those of the other in another order. -/
theorem rearranged (h : n.ReorderedBy family n') :
    Rearranged (ReorderedBy family) n.children n'.children := by
  obtain ⟨-, -, hchildren⟩ := h
  exact .of_forall₂_filter _ _ hchildren

theorem exists_partner (h : n.ReorderedBy family n') :
    (∀ c ∈ n.children, ∃ c' ∈ n'.children, c.ReorderedBy family c') ∧
      ∀ c' ∈ n'.children, ∃ c ∈ n.children, c.ReorderedBy family c' :=
  ⟨fun _ hc => h.rearranged.exists_of_mem hc, fun _ hc' =>
    (h.symm.rearranged.exists_of_mem hc').imp fun _ hc => ⟨hc.1, hc.2.symm⟩⟩

variable {α : Type} {read read' : Node → Reading α} {keep : Node → Bool}

/-- **Children are read alike**, but for the order of items of different families. -/
theorem agree_of_mapM (h : n.ReorderedBy family n') {tag : α → Family} {xs ys : List α}
    (hkeep : ∀ c c' : Node, c'.label = c.label → keep c' = keep c)
    (htag : ∀ c x, keep c = true → read c = .ok x → tag x = family n.label c.label)
    (hread : ∀ c ∈ n.children, keep c = true →
      ∀ c', c.ReorderedBy family c' → ∀ x, read' c' = .ok x ↔ read c = .ok x)
    (hxs : (n.children.filter keep).mapM read = .ok xs)
    (hys : (n'.children.filter keep).mapM read' = .ok ys) : Family.Agree tag xs ys := by
  have htag' : ∀ c' ∈ n'.children, ∀ y, keep c' = true → read' c' = .ok y →
      tag y = family n.label c'.label := by
    intro c' hc' y hk hy
    obtain ⟨c, hc, hcc'⟩ := h.exists_partner.2 c' hc'
    have hk : keep c = true := hkeep c c' hcc'.label_eq ▸ hk
    rw [hcc'.label_eq]
    exact htag c y hk ((hread c hc hk c' hcc' y).mp hy)
  have hswap (cs : List Node) (f : Family) :
      (cs.filter (family n.label ·.label = f)).filter keep =
        (cs.filter keep).filter (family n.label ·.label = f) := by
    simp only [List.filter_filter, Bool.and_comm]
  intro f
  have hforall : List.Forall₂ (fun c c' => ∀ x, read' c' = .ok x ↔ read c = .ok x)
      ((n.children.filter keep).filter (family n.label ·.label = f))
      ((n'.children.filter keep).filter (family n.label ·.label = f)) := by
    obtain ⟨-, -, hchildren⟩ := h
    rw [← hswap, ← hswap]
    have hkept := List.rel_filter (p := keep) (q := keep) (fun c c' hcc' => by
      show keep c = true ↔ keep c' = true
      rw [hkeep c c' hcc'.label_eq]) (hchildren f)
    have hmem : ∀ c ∈ (n.children.filter (family n.label ·.label = f)).filter keep,
        c ∈ n.children ∧ keep c = true := fun c hc =>
      ⟨List.mem_of_mem_filter (List.mem_of_mem_filter hc), List.of_mem_filter hc⟩
    exact ((List.forall₂_and_left ..).mpr ⟨hmem, hkept⟩).imp
      fun c c' hc => hread c hc.1.1 hc.1.2 c' hc.2
  refine eq_of_forall₂ ?_ hforall ?_
  · refine (List.rel_filter (fun x c hx => ?_) (forall₂_of_mapM hxs)).imp fun _ _ hx => hx.2
    obtain ⟨-, hk⟩ := List.mem_filter.mp hx.1
    simp [htag c x hk hx.2]
  · refine (List.rel_filter (fun y c' hy => ?_) (forall₂_of_mapM hys)).imp fun _ _ hy => hy.2
    obtain ⟨hc', hk⟩ := List.mem_filter.mp hy.1
    simp [htag' c' hc' y hk hy.2]

/-- What does not depend on the order of items of different families holds of the children of both
nodes. -/
theorem exists_mapM_iff (h : n.ReorderedBy family n') (tag : α → Family)
    (hkeep : ∀ c c' : Node, c'.label = c.label → keep c' = keep c)
    (htag : ∀ c x, keep c = true → read c = .ok x → tag x = family n.label c.label)
    (hread : ∀ c ∈ n.children, keep c = true →
      ∀ c', c.ReorderedBy family c' → ∀ x, read' c' = .ok x ↔ read c = .ok x)
    {P : List α → Prop} (hP : ∀ xs ys, Family.Agree tag xs ys → (P ys ↔ P xs)) :
    (∃ ys, (n'.children.filter keep).mapM read' = .ok ys ∧ P ys) ↔
      ∃ xs, (n.children.filter keep).mapM read = .ok xs ∧ P xs := by
  have hexists : (∃ ys, (n'.children.filter keep).mapM read' = .ok ys) ↔
      ∃ xs, (n.children.filter keep).mapM read = .ok xs := by
    simp only [exists_mapM_iff_forall, List.mem_filter, and_imp]
    constructor
    · intro hall c hc hk
      obtain ⟨c', hc', hcc'⟩ := h.exists_partner.1 c hc
      obtain ⟨x, hx⟩ := hall c' hc' (hkeep c c' hcc'.label_eq ▸ hk)
      exact ⟨x, (hread c hc hk c' hcc' x).mp hx⟩
    · intro hall c' hc' hk
      obtain ⟨c, hc, hcc'⟩ := h.exists_partner.2 c' hc'
      have hk : keep c = true := hkeep c c' hcc'.label_eq ▸ hk
      obtain ⟨x, hx⟩ := hall c hc hk
      exact ⟨x, (hread c hc hk c' hcc' x).mpr hx⟩
  constructor
  · rintro ⟨ys, hys, hp⟩
    obtain ⟨xs, hxs⟩ := hexists.mp ⟨ys, hys⟩
    exact ⟨xs, hxs, (hP xs ys (h.agree_of_mapM hkeep htag hread hxs hys)).mp hp⟩
  · rintro ⟨xs, hxs, hp⟩
    obtain ⟨ys, hys⟩ := hexists.mpr ⟨xs, hxs⟩
    exact ⟨ys, hys, (hP xs ys (h.agree_of_mapM hkeep htag hread hxs hys)).mpr hp⟩

/-- Children that are read only if they are of one family are read to the same list. -/
theorem mapM_iff (h : n.ReorderedBy family n') {f : Family}
    (hkeep : ∀ c c' : Node, c'.label = c.label → keep c' = keep c)
    (hf : ∀ c x, keep c = true → read c = .ok x → family n.label c.label = f)
    (hread : ∀ c ∈ n.children, keep c = true →
      ∀ c', c.ReorderedBy family c' → ∀ x, read' c' = .ok x ↔ read c = .ok x) (zs : List α) :
    (n'.children.filter keep).mapM read' = .ok zs ↔
      (n.children.filter keep).mapM read = .ok zs := by
  have hiff := h.exists_mapM_iff (fun _ => f) hkeep (fun c x hk hx => (hf c x hk hx).symm) hread
    (P := (· = zs)) fun xs ys hsame => by rw [hsame.eq_of_const]
  simpa using hiff

theorem mapM_content_iff (h : n.ReorderedBy family n') {f : Family}
    (hf : ∀ c x, read c = .ok x → family n.label c.label = f)
    (hread : ∀ c ∈ n.children, ∀ c', c.ReorderedBy family c' →
      ∀ x, read' c' = .ok x ↔ read c = .ok x)
    (zs : List α) : n'.content.mapM read' = .ok zs ↔ n.content.mapM read = .ok zs :=
  h.mapM_iff (fun c c' hc => by simp [isDocumentation, hc]) (fun c x _ hx => hf c x hx)
    (fun c hc _ => hread c hc) zs

/-! ## What every reader asks -/

theorem finish_iff (h : n.ReorderedBy family n') (known : List String) (u : Unit) :
    n'.finish known = .ok u ↔ n.finish known = .ok u := by
  rw [finish_eq_ok, finish_eq_ok, h.closed_iff]

theorem filter_eq_nil_iff (h : n.ReorderedBy family n')
    (hkeep : ∀ c c' : Node, c'.label = c.label → keep c' = keep c) :
    n'.children.filter keep = [] ↔ n.children.filter keep = [] := by
  simp only [List.filter_eq_nil_iff]
  constructor
  · intro hnone c hc
    obtain ⟨c', hc', hcc'⟩ := h.exists_partner.1 c hc
    exact hkeep c c' hcc'.label_eq ▸ hnone c' hc'
  · intro hnone c' hc'
    obtain ⟨c, hc, hcc'⟩ := h.exists_partner.2 c' hc'
    exact (hkeep c c' hcc'.label_eq).symm ▸ hnone c hc

theorem noContent_iff (h : n.ReorderedBy family n') (u : Unit) :
    n'.noContent = .ok u ↔ n.noContent = .ok u := by
  rw [noContent_eq_ok, noContent_eq_ok]
  exact h.filter_eq_nil_iff fun c c' hc => by simp [isDocumentation, hc]

end ReorderedBy

end Node

/-! ## Documentation and expressions -/

variable {family : String → String → Family} {n n' : Node}

namespace Node.ReorderedBy

/-- What is read from the label and from attributes is the same. -/
theorem fields_eq (h : n.ReorderedBy family n') :
    n'.label = n.label ∧ n'.id = n.id ∧ (∀ a, n'.text a = n.text a) ∧
      (∀ a, n'.text? a = n.text? a) ∧ (∀ r a, n'.ref (r := r) a = n.ref a) ∧
      (∀ r a, n'.ref? (r := r) a = n.ref? a) ∧ (∀ a, n'.texts a = n.texts a) ∧
      (∀ r a, n'.refs (r := r) a = n.refs a) ∧ (∀ a, n'.flag? a = n.flag? a) ∧
      (∀ a standard, n'.flag a standard = n.flag a standard) ∧
      (∀ a, n'.integer? a = n.integer? a) ∧ (∀ a, n'.count? a = n.count? a) ∧
      (∀ (α : Type) [Vocabulary α] [Inhabited α] a, (n'.word a : Reading α) = n.word a) ∧
      ∀ child, n'.unknownChild child = n.unknownChild child := by
  simp [h.label_eq, h.attribute?_eq, unknownChild]

end Node.ReorderedBy

theorem Documentation.ofNode_reordered (h : n.ReorderedBy family n') (d : Documentation) :
    ofNode n' = .ok d ↔ ofNode n = .ok d := by
  have hnil : n'.children = [] ↔ n.children = [] := by
    rw [← List.filter_true n'.children, ← List.filter_true n.children]
    exact h.filter_eq_nil_iff fun _ _ _ => rfl
  simp only [ofNode, h.fields_eq]
  cases hcs : n.children with
  | nil =>
    rw [hnil.mpr hcs]
    simp only [bind_eq_ok, h.finish_iff]
  | cons c cs =>
    obtain ⟨c', cs', hcs'⟩ := List.exists_cons_of_ne_nil (mt hnil.mp (by simp [hcs]))
    simp [hcs', bind_eq_ok]

namespace Node.ReorderedBy

theorem documentation_iff (h : n.ReorderedBy family n') (ds : List Documentation) :
    n'.documentation = .ok ds ↔ n.documentation = .ok ds :=
  h.mapM_iff (f := family n.label "documentation")
    (fun c c' hc => by simp [isDocumentation, hc])
    (fun c _ hc _ => by rw [of_decide_eq_true hc])
    (fun _ _ _ _ hcc' => Documentation.ofNode_reordered hcc') ds

/-- What readers check or read besides fields comes out the same. -/
theorem checks_iff (h : n.ReorderedBy family n') :
    (∀ known u, n'.finish known = .ok u ↔ n.finish known = .ok u) ∧
      (∀ u, n'.noContent = .ok u ↔ n.noContent = .ok u) ∧
      ∀ id identity, Identity.ofNode id n' = .ok identity ↔ Identity.ofNode id n = .ok identity := by
  refine ⟨h.finish_iff, h.noContent_iff, fun id identity => ?_⟩
  simp only [Identity.ofNode, bind_eq_ok, h.documentation_iff]

end Node.ReorderedBy

theorem Expression.ofNode_reordered (h : n.ReorderedBy family n') (e : Expression) :
    ofNode n' = .ok e ↔ ofNode n = .ok e := by
  simp only [ofNode, ite_eq_iff', bind_eq_ok, h.fields_eq, h.checks_iff]

end BpmnModel
