import BpmnModel.Proofs.Growth
import BpmnModel.Proofs.Succession

/-!
# Contents at once and contents step by step

A process, a sub-process, a collaboration or an interface can be built with its contents and added,
or be added without them and given the contents one by one.

* `Container.Part`, `Container.foldlM_extend` — a container is assembled by storing its parts in any
  order that keeps flow elements and lane sets each in order.
* `Scope.Agrees.registers_part` — what the edit that adds one part to a container does.
* `Scope.sound_processes`, `Scope.Agrees.sound_subProcesses` — how what owns a container grows.
* `RootGrowth` — how root elements grow that only keep lists; `collaborations` and `interfaces`.
* `Reachable.sameEffect_stepwise` — both ways are refused, or both lead to the same scope.
-/

namespace BpmnModel

/-! ## Parts of containers -/

/-- What a process or sub-process can be given. -/
inductive Container.Part where
  | flowElement (e : FlowElement)
  | laneSet (s : LaneSet)

namespace Container

namespace Part

def flowElement? : Part → Option FlowElement
  | flowElement e => some e
  | laneSet _ => none

def laneSet? : Part → Option LaneSet
  | flowElement _ => none
  | laneSet s => some s

/-- The edit that gives the part to `owner`. -/
def change (owner : Id) : Part → Change
  | flowElement e => .addFlowElement owner e
  | laneSet s => .addLaneSet owner s

end Part

/-- Stores a part. -/
def extend (c : Container) : Part → Except ModelError Container
  | .flowElement e => c.insert e
  | .laneSet s => .ok (c.pushLaneSet s)

variable {c c' : Container}

/-- Lane sets do not matter where a flow element is inserted. -/
theorem insert_with_laneSets (c : Container) (laneSets : List LaneSet) (e : FlowElement) :
    insert { c with laneSets } e = (c.insert e).map fun c => { c with laneSets } := by
  unfold insert
  rw [show find? { c with laneSets } e.id = c.find? e.id from rfl]
  cases c.find? e.id with
  | some _ => rfl
  | none => cases e <;> rfl

/-- **Storing parts one by one assembles the container.** -/
theorem foldlM_extend (elements : List FlowElement) (laneSets : List LaneSet) (parts : List Part) :
    parts.foldlM extend ⟨elements, laneSets⟩ =
      insertAll ⟨elements, laneSets ++ parts.filterMap Part.laneSet?⟩
        (parts.filterMap Part.flowElement?) := by
  induction parts generalizing elements laneSets with
  | nil =>
    rw [List.filterMap_nil, List.append_nil]
    rfl
  | cons part parts ih =>
    cases part with
    | laneSet s =>
      simp only [List.filterMap_cons, Part.laneSet?, Part.flowElement?]
      rw [List.append_cons]
      exact ih elements (laneSets ++ [s])
    | flowElement e =>
      simp only [List.filterMap_cons, Part.laneSet?, Part.flowElement?]
      rw [List.foldlM_cons, extend, insertAll,
        insert_with_laneSets ⟨elements, laneSets⟩ (laneSets ++ parts.filterMap Part.laneSet?)]
      cases hins : insert ⟨elements, laneSets⟩ e with
      | error refusal => rfl
      | ok c =>
        obtain ⟨elements', laneSets'⟩ := c
        cases laneSets_insert hins
        exact ih elements' laneSets

theorem slots_extend {part : Part} (owner : Id) (h : c.extend part = .ok c') :
    (c'.slots owner).Perm (c.slots owner ++ (part.change owner).tree.map Placed.slot) := by
  cases part with
  | flowElement e => exact slots_insert owner h
  | laneSet s =>
    cases h
    exact .of_eq (slots_pushLaneSet owner c s)

end Container

namespace Scope

variable {s t : Scope}

/-- **A part is added to a container by storing it there**, if it can be registered. -/
theorem Agrees.registers_part (h : s.Agrees) {path : List Id} {x : Element} {k : Container}
    (hx : s.OwnerPath path x) (hk : x.container? = some k) (part : Container.Part) :
    s.Registers (part.change x.id) fun t => ∃ k', k.extend part = .ok k' ∧
      t = { s.replaceContainer path k' with registry := t.registry } := by
  have hpath := containerPath_eq h hx hk
  have hat := h.containerAt?_eq hx hk
  cases part with
  | flowElement e =>
    have hrun := addFlowElement_run s x.id e
    rw [hpath] at hrun
    simp only [hat] at hrun
    cases hins : k.insert e with
    | ok k' =>
      simp only [hins] at hrun
      exact .of_run (addFlowElement x.id e) (some x.id) (.flowElement e) (s.replaceContainer path k')
        rfl rfl hrun fun _ _ => ⟨k', hins, rfl⟩
    | error refusal =>
      -- the identifier is taken, which the registry knows as well
      cases hr : s.registry.register (.flowElement e) (some x.id) with
      | ok registry => exact absurd hins (h.insert_ne_error hx hk hr refusal)
      | error clash =>
        refine .of_run (addFlowElement x.id e) (some x.id) (.flowElement e) s rfl rfl ?_ ?_
        · simp only [hrun, hr]
        · intro registry hr'
          cases hr.symm.trans hr'
  | laneSet laneSet =>
    have hrun := addLaneSet_run s x.id laneSet
    rw [hpath] at hrun
    simp only [hat] at hrun
    exact .of_run (addLaneSet x.id laneSet) (some x.id) (.laneSet laneSet)
      (s.replaceContainer path (k.pushLaneSet laneSet)) rfl rfl hrun fun _ _ => ⟨_, rfl, rfl⟩

end Scope

/-! ## What owns a container -/

namespace Growth

/-- The owner of a container, with all but the contents fixed. -/
def ofContainer (id : Id) (whole : Container → Change) (holding : Container → Scope) :
    Growth Container Container.Part where
  store := Container.extend
  whole := whole
  part := Container.Part.change id
  holding := holding

/-- It is sound if the container is found and can be replaced. -/
theorem sound_ofContainer {s : Scope} {id : Id} {whole : Container → Change}
    {holding : Container → Scope} (path : List Id) (fixed : List (Id × Slot))
    (registers : ∀ k, s.Registers (whole k) ((ofContainer id whole holding).Holds k))
    (found : ∀ k t, t.Agrees → (ofContainer id whole holding).Holds k t →
      ∃ x, t.OwnerPath path x ∧ x.id = id ∧ x.container? = some k)
    (replaced : ∀ k t, t.Agrees → (ofContainer id whole holding).Holds k t →
      ∀ k', t.replaceContainer path k' = { holding k' with registry := t.registry })
    (slots : ∀ k, ((whole k).tree.map Placed.slot).Perm (fixed ++ k.slots id)) :
    (ofContainer id whole holding).Sound s where
  whole := registers
  part k t ht hk part := by
    obtain ⟨x, hx, rfl, hxk⟩ := found k t ht hk
    rcases ht.registers_part hx hxk part with
      hrefused | ⟨outcome, u, hregister, hrun, k', hstore, hu⟩
    · exact .inl hrefused
    · refine .inr ⟨outcome, u, hregister, hrun, k', hstore, ?_⟩
      rw [replaced k t ht hk k'] at hu
      exact hu
  slots k part k' hstore := by
    rw [List.map_append]
    refine (slots k').trans ?_
    refine ((Container.slots_extend id hstore).append_left fixed).trans ?_
    rw [← List.append_assoc]
    exact (slots k).symm.append_right _

end Growth

namespace Scope

variable {s t : Scope}

/-- A process that is added to `s`. -/
def processes (s : Scope) (p : Process) : Growth Container Container.Part :=
  .ofContainer p.identity.id (fun k => .addRoot (.process { p with container := k }))
    fun k => { s with roots := s.roots ++ [.process { p with container := k }] }

theorem sound_processes (s : Scope) (p : Process) : (s.processes p).Sound s := by
  have mem_roots {k : Container} {t : Scope} (hk : (s.processes p).Holds k t) :
      .process { p with container := k } ∈ t.roots := by
    rw [hk]
    exact List.mem_append_right _ (List.mem_singleton_self _)
  refine Growth.sound_ofContainer [p.identity.id] ((p.identity.id, ⟨.process, none⟩) ::
    (p.artifacts.map Element.artifact).flatMap (Element.slots (some p.identity.id))) ?_ ?_ ?_ ?_
  · intro k
    exact registers_addRoot s (.process { p with container := k })
  · intro k t ht hk
    exact ⟨.root (.process { p with container := k }), .top (mem_topLevel_root.mpr (mem_roots hk)),
      rfl, rfl⟩
  · intro k t ht hk k'
    have hfound : t.root? p.identity.id = some (.process { p with container := k }) :=
      ht.root?_eq (mem_roots hk)
    have hroots : t.roots = s.roots ++ [.process { p with container := k }] := by
      rw [hk]
      rfl
    rw [replaceContainer_of_process hfound]
    refine (replaceRoot_concat hroots ht.nodup_roots ?_).trans ?_
    · rfl
    · rw [hk]
      rfl
  · intro k
    refine .trans (.of_eq (Agrees.slots_process { p with container := k })) ?_
    exact List.perm_append_comm.cons _

end Scope

/-! ## Sub-processes -/

namespace FlowElement

/-- The element with other contents, if it can have any. -/
def withContents (e : FlowElement) (k : Container) : FlowElement :=
  e.mapContainer fun _ => k

@[simp]
theorem id_withContents (e : FlowElement) (k : Container) : (e.withContents k).id = e.id :=
  id_mapContainer _ e

@[simp]
theorem withContents_withContents (e : FlowElement) (k k' : Container) :
    (e.withContents k).withContents k' = e.withContents k' :=
  mapContainer_mapContainer _ _ e

theorem foldl_attach_withContents (flows : List SequenceFlow) (e : FlowElement) (k : Container) :
    flows.foldl attach (e.withContents k) = (flows.foldl attach e).withContents k :=
  foldl_attach_mapContainer _ flows e

theorem container?_withContents {e : FlowElement} {k₀ : Container} (h : e.container? = some k₀)
    (k : Container) : (e.withContents k).container? = some k := by
  rw [withContents, container?_mapContainer, h]
  rfl

end FlowElement

namespace Container

/-- The container with one more node, which lists the flows that touch it. -/
def concat (c : Container) (e : FlowElement) : Container :=
  ⟨c.elements ++ [c.sequenceFlows.foldl .attach e], c.laneSets⟩

variable {c c' : Container} {e : FlowElement}

theorem eq_concat_of_insert {k : Container} (he : e.container? = some k)
    (h : c.insert e = .ok c') : c' = c.concat e := by
  obtain ⟨-, ⟨flow, rfl, -⟩ | ⟨-, rfl⟩⟩ := insert_cases h
  · cases he
  · rfl

/-- The contents of the last node are replaced. -/
theorem replaceAt_concat {k : Container}
    (hnd : ((c.concat (e.withContents k)).elements.map FlowElement.id).Nodup) (k' : Container) :
    replaceAt k' [e.id] (c.concat (e.withContents k)) = c.concat (e.withContents k') := by
  have hmap := map_concat_of_nodup hnd (FlowElement.withContents · k')
  rw [FlowElement.id_foldl_attach, FlowElement.id_withContents,
    FlowElement.foldl_attach_withContents, FlowElement.withContents_withContents,
    ← FlowElement.foldl_attach_withContents, ← FlowElement.foldl_attach_withContents] at hmap
  exact congrArg (Container.mk · c.laneSets) hmap

end Container

namespace Scope

variable {s : Scope}

/-- A sub-process that is added to the container `c` at `path`, which belongs to `owner`. -/
def subProcesses (s : Scope) (path : List Id) (owner : Id) (c : Container) (sub : FlowElement) :
    Growth Container Container.Part :=
  .ofContainer sub.id (fun k => .addFlowElement owner (sub.withContents k)) fun k =>
    s.replaceContainer path (c.concat (sub.withContents k))

section

variable {path : List Id} {x : Element} {c k : Container} {sub : FlowElement} {t : Scope}

/-- The owner has the sub-process at the end of its container. -/
theorem exists_of_holds_subProcess (hat : s.containerAt? path = some c)
    (hk : (s.subProcesses path x.id c sub).Holds k t) :
    ∃ y, t.OwnerPath path y ∧ y.container? = some (c.concat (sub.withContents k)) := by
  refine exists_of_containerAt? ?_
  rw [hk]
  exact containerAt?_replaceContainer (c.concat (sub.withContents k)) hat

theorem Agrees.sound_subProcesses (h : s.Agrees) (hx : s.OwnerPath path x)
    (hc : x.container? = some c) {k₀ : Container} (hsub : sub.container? = some k₀) :
    (s.subProcesses path x.id c sub).Sound s := by
  have hat := h.containerAt?_eq hx hc
  obtain ⟨artifacts, hslots⟩ := FlowElement.slots_of_container? hsub
  refine Growth.sound_ofContainer (path ++ [sub.id])
    ((sub.id, ⟨sub.kind, some x.id⟩) :: artifacts) ?_ ?_ ?_ ?_
  · intro k
    rcases h.registers_part hx hc (.flowElement (sub.withContents k)) with
      hrefused | ⟨outcome, t, hregister, hrun, k', hins, ht⟩
    · exact .inl hrefused
    · cases Container.eq_concat_of_insert (FlowElement.container?_withContents hsub k) hins
      exact .inr ⟨outcome, t, hregister, hrun, ht⟩
  · intro k t ht hk
    obtain ⟨y, hy, hyc⟩ := exists_of_holds_subProcess hat hk
    have hmem := Element.flowElement_mem_children hyc
      (List.mem_append_right _ (List.mem_singleton_self _))
    have hid : (c.sequenceFlows.foldl .attach (sub.withContents k)).id = sub.id :=
      (FlowElement.id_foldl_attach _ _).trans (FlowElement.id_withContents sub k)
    refine ⟨.flowElement (c.sequenceFlows.foldl .attach (sub.withContents k)), ?_, hid, ?_⟩
    · exact hid ▸ hy.child hmem
    · exact (FlowElement.container?_foldl_attach _ _).trans
        (FlowElement.container?_withContents hsub k)
  · intro k t ht hk k'
    obtain ⟨y, hy, hyc⟩ := exists_of_holds_subProcess hat hk
    obtain ⟨o, ho⟩ := hy.mem_placed
    have hnd := Element.nodup_elements (ht.nodup_children ho) hyc
    rw [hk]
    show replaceContainer { s.replaceContainer path (c.concat (sub.withContents k)) with
      registry := t.registry } _ _ = _
    rw [replaceContainer_with_registry, replaceContainer_replaceContainer hat,
      Container.replaceAt_concat hnd]
  · intro k
    refine .trans (.of_eq (hslots (fun _ => k) (some x.id))) ?_
    exact List.perm_append_comm.cons _

end

end Scope

/-! ## Root elements that keep lists -/

/-- Root elements with contents in `κ` that get parts in `ι`. -/
structure RootGrowth (κ ι : Type) where
  root : κ → Root
  add : κ → ι → κ
  child : ι → Element
  /-- The edit that gives a part to the root element of an identifier. -/
  change : Id → ι → Change
  id_add : ∀ k i, (root (add k i)).id = (root k).id
  kind_add : ∀ k i, (root (add k i)).kind = (root k).kind
  children_add : ∀ k i, (Element.root (root (add k i))).children.Perm
    ((Element.root (root k)).children ++ [child i])
  tree_change : ∀ owner i, (change owner i).tree = (child i).placed (some owner)
  registers_change : ∀ {t : Scope} {k : κ}, t.Agrees → root k ∈ t.roots → ∀ i,
    t.Registers (change (root k).id i) fun u =>
      u = { t.replaceRoot (root (add k i)) with registry := u.registry }

namespace RootGrowth

variable {κ ι : Type} (g : RootGrowth κ ι) (s : Scope) (id : Id)

/-- A root element with this identifier that is added to `s`. -/
def growth : Growth { k // (g.root k).id = id } ι where
  store k i := .ok ⟨g.add k i, (g.id_add k i).trans k.property⟩
  whole k := .addRoot (g.root k)
  part := g.change id
  holding k := { s with roots := s.roots ++ [g.root k] }

theorem sound : (g.growth s id).Sound s where
  whole k := Scope.registers_addRoot s (g.root k)
  part k t ht hk i := by
    obtain ⟨k, rfl⟩ := k
    have hroots : t.roots = s.roots ++ [g.root k] := by
      rw [hk]
      rfl
    have hmem : g.root k ∈ t.roots := hroots ▸ List.mem_append_right _ (List.mem_singleton_self _)
    rcases g.registers_change ht hmem i with hrefused | ⟨outcome, u, hregister, hrun, hu⟩
    · exact .inl hrefused
    · refine .inr ⟨outcome, u, hregister, hrun, _, rfl, ?_⟩
      rw [Scope.replaceRoot_concat hroots ht.nodup_roots (g.id_add k i), hk] at hu
      exact hu
  slots k i k' hstore := by
    cases hstore
    obtain ⟨k, rfl⟩ := k
    have hslots := Root.slots_of_children (g.id_add k i) (g.kind_add k i) (g.children_add k i)
    rw [List.map_append]
    show List.Perm _ (_ ++ ((g.change _ i).tree.map Placed.slot))
    rw [g.tree_change]
    exact hslots

theorem foldlM_store (k : { k // (g.root k).id = id }) (parts : List ι) :
    ∃ h, parts.foldlM (g.growth s id).store k = .ok ⟨parts.foldl g.add k, h⟩ := by
  induction parts generalizing k with
  | nil => exact ⟨k.property, rfl⟩
  | cons i parts ih => exact ih ⟨g.add k i, (g.id_add k i).trans k.property⟩

/-- **A root element with its parts and without them and then part by part.** -/
theorem sameEffect {s : Scope} (h : s.Agrees) (k : κ) (parts : List ι) :
    s.SameEffect (Change.addRoot (g.root (parts.foldl g.add k))).perform
      (Scope.performAll (.addRoot (g.root k) :: parts.map (g.change (g.root k).id))) := by
  obtain ⟨hid, hfold⟩ := g.foldlM_store s (g.root k).id ⟨k, rfl⟩ parts
  have hsame := (g.sound s (g.root k).id).sameEffect h ⟨k, rfl⟩ parts
  rw [Growth.atOnce_of_ok hfold] at hsame
  exact hsame

end RootGrowth

/-- The edit that gives the part to `owner`. -/
def Collaboration.Part.change (owner : Id) : Part → Change
  | participant p => .addParticipant owner p
  | messageFlow f => .addMessageFlow owner f
  | conversation n => .addConversation owner n
  | link l => .addLink owner l

namespace Scope

variable {s : Scope}

theorem Agrees.registers_collaboration_part (h : s.Agrees) {c : Collaboration}
    (hc : .collaboration c ∈ s.roots) (part : Collaboration.Part) :
    s.Registers (part.change c.identity.id) fun t =>
      t = { s.replaceRoot (.collaboration (c.add part)) with registry := t.registry } := by
  have hkind : Requirement.anyCollaboration.isMetBy c.kind = true := by
    unfold Collaboration.kind
    split <;> rfl
  have hfits : s.objection? c.identity.id .anyCollaboration = none :=
    h.objection?_eq_none (.top (mem_topLevel_root.mpr hc)) hkind
  have hroot : s.root? c.identity.id = some (.collaboration c) := h.root?_eq hc
  have htree : (part.change c.identity.id).tree = part.element.placed (some c.identity.id) := by
    cases part <;> rfl
  have hrun := addToCollaboration_run s c.identity.id part.element (·.add part)
  simp only [hfits, hroot] at hrun
  refine .of_run (addToCollaboration c.identity.id part.element (·.add part)) (some c.identity.id)
    part.element (s.replaceRoot (.collaboration (c.add part))) ?_ htree hrun fun _ _ => rfl
  cases part <;> rfl

theorem Agrees.registers_operation (h : s.Agrees) {i : Interface} (hi : .interface i ∈ s.roots)
    (o : Operation) :
    s.Registers (.addOperation i.identity.id o) fun t =>
      t = { s.replaceRoot (.interface (i.push o)) with registry := t.registry } := by
  have hfits : s.objection? i.identity.id (.kind .interface) = none :=
    h.objection?_eq_none (.top (mem_topLevel_root.mpr hi)) rfl
  have hroot : s.root? i.identity.id = some (.interface i) := h.root?_eq hi
  have hrun := addOperation_run s i.identity.id o
  simp only [hfits, hroot] at hrun
  exact .of_run (addOperation i.identity.id o) (some i.identity.id) (.operation o)
    (s.replaceRoot (.interface (i.push o))) rfl rfl hrun fun _ _ => rfl

end Scope

/-- How collaborations grow. -/
def collaborations : RootGrowth Collaboration Collaboration.Part where
  root := .collaboration
  add := .add
  child := Collaboration.Part.element
  change := Collaboration.Part.change
  id_add c part := congrArg Identity.id (c.identity_add part)
  kind_add := Collaboration.kind_add
  children_add := Collaboration.children_add
  tree_change owner part := by cases part <;> rfl
  registers_change ht hc part := ht.registers_collaboration_part hc part

/-- How interfaces grow. -/
def interfaces : RootGrowth Interface Operation where
  root := .interface
  add := .push
  child := .operation
  change := .addOperation
  id_add _ _ := rfl
  kind_add _ _ := rfl
  children_add i o := .of_eq (i.children_push o)
  tree_change _ _ := rfl
  registers_change ht hi o := ht.registers_operation hi o

/-! ## Lists of parts -/

namespace Collaboration

namespace Part

def participant? : Part → Option Participant
  | participant p => some p
  | _ => none

def messageFlow? : Part → Option MessageFlow
  | messageFlow f => some f
  | _ => none

def conversation? : Part → Option ConversationNode
  | conversation n => some n
  | _ => none

def link? : Part → Option ConversationLink
  | link l => some l
  | _ => none

end Part

/-- The collaboration built with these contents: each list gets its directory. -/
def holding (c : Collaboration) (participants : List Participant) (messageFlows : List MessageFlow)
    (conversations : List ConversationNode) (links : List ConversationLink) : Collaboration :=
  { c with
    participants := ⟨participants, Roster.index _ participants, rfl⟩
    messageFlows := ⟨messageFlows, Roster.index _ messageFlows, rfl⟩
    conversations := ⟨conversations, Roster.index _ conversations, rfl⟩
    links := ⟨links, Roster.index _ links, rfl⟩ }

variable (c : Collaboration) (ps : List Participant) (fs : List MessageFlow)
  (ns : List ConversationNode) (ls : List ConversationLink)

theorem add_holding (part : Part) :
    (c.holding ps fs ns ls).add part =
      c.holding (ps ++ part.participant?.toList) (fs ++ part.messageFlow?.toList)
        (ns ++ part.conversation?.toList) (ls ++ part.link?.toList) := by
  cases part <;>
    simp [add, holding, pushParticipant, pushMessageFlow, pushConversation, pushLink,
      Part.participant?, Part.messageFlow?, Part.conversation?, Part.link?]

/-- **Parts that are added in any order end up in the list of their kind.** -/
theorem foldl_add (parts : List Part) :
    parts.foldl add (c.holding ps fs ns ls) =
      c.holding (ps ++ parts.filterMap Part.participant?) (fs ++ parts.filterMap Part.messageFlow?)
        (ns ++ parts.filterMap Part.conversation?) (ls ++ parts.filterMap Part.link?) := by
  induction parts generalizing ps fs ns ls with
  | nil => simp
  | cons part parts ih =>
    rw [List.foldl_cons, add_holding, ih]
    simp only [List.filterMap_eq_flatMap_toList, List.flatMap_cons, List.append_assoc]

end Collaboration

namespace Interface

theorem foldl_push (i : Interface) (os : List Operation) :
    ∃ h, os.foldl push i =
      { i with operations := os.foldl Roster.push i.operations, operations_ne_nil := h } := by
  induction os generalizing i with
  | nil => exact ⟨i.operations_ne_nil, rfl⟩
  | cons o os ih => exact ih (i.push o)

/-- An interface with all operations is the one with the first and the others appended. -/
theorem of_cons (identity : Identity) (name : String) (o : Operation) (os : List Operation)
    (implementationRef : Option String) :
    ∃ i : Interface, i.identity = identity ∧
      Interface.of identity name [o] implementationRef = .ok i ∧
      Interface.of identity name (o :: os) implementationRef = .ok (os.foldl push i) := by
  refine ⟨⟨identity, name, .ofList [o], implementationRef, by simp⟩, rfl, rfl, ?_⟩
  obtain ⟨hne, hfold⟩ := foldl_push ⟨identity, name, .ofList [o], implementationRef, by simp⟩ os
  rw [hfold]
  exact dif_neg (List.cons_ne_nil o os)

end Interface

open Scope

/-- **Building at once and building step by step agree.** A process, a sub-process, a collaboration
or an interface is built with contents and added; or it is added without them, an interface with its
first operation, and is given them by one edit each. Either both are refused, or both lead to the
same scope with the same registrations. The edits may come in any order that keeps each kind of
contents in order. -/
theorem Reachable.sameEffect_stepwise {s : Scope} (h : Reachable s) :
    (∀ (p : Process) (parts : List Container.Part),
      s.SameEffect
        (addBuilt do
          let container ← Container.assemble (parts.filterMap Container.Part.flowElement?)
            (parts.filterMap Container.Part.laneSet?)
          return .addRoot (.process { p with container }))
        (performAll (.addRoot (.process { p with container := .empty }) ::
          parts.map (Container.Part.change p.identity.id)))) ∧
      (∀ (owner : Id) (a : Activity) (triggeredByEvent : Bool) (artifacts : List Artifact)
          (parts : List Container.Part),
        s.SameEffect
          (addBuilt do
            let c ← Container.assemble (parts.filterMap Container.Part.flowElement?)
              (parts.filterMap Container.Part.laneSet?)
            return .addFlowElement owner
              (.subProcess a triggeredByEvent c.elements c.laneSets artifacts))
          (performAll (.addFlowElement owner (.subProcess a triggeredByEvent [] [] artifacts) ::
            parts.map (Container.Part.change a.base.id)))) ∧
      (∀ (c : Collaboration) (parts : List Collaboration.Part),
        s.SameEffect
          (Change.addRoot (.collaboration (c.holding
            (parts.filterMap Collaboration.Part.participant?)
            (parts.filterMap Collaboration.Part.messageFlow?)
            (parts.filterMap Collaboration.Part.conversation?)
            (parts.filterMap Collaboration.Part.link?)))).perform
          (performAll (.addRoot (.collaboration (c.holding [] [] [] [])) ::
            parts.map (Collaboration.Part.change c.identity.id)))) ∧
      ∀ (identity : Identity) (name : String) (o : Operation) (os : List Operation)
          (implementationRef : Option String),
        ∃ i whole, Interface.of identity name [o] implementationRef = .ok i ∧
          Interface.of identity name (o :: os) implementationRef = .ok whole ∧
          s.SameEffect (Change.addRoot (.interface whole)).perform
            (performAll (.addRoot (.interface i) :: os.map (.addOperation identity.id))) := by
  have hs := h.agrees
  have hassemble (parts : List Container.Part) :
      Container.assemble (parts.filterMap Container.Part.flowElement?)
        (parts.filterMap Container.Part.laneSet?) = parts.foldlM Container.extend .empty :=
    (Container.foldlM_extend [] [] parts).symm
  refine ⟨?_, ?_, ?_, ?_⟩
  · intro p parts
    rw [hassemble]
    exact (s.sound_processes p).sameEffect hs .empty parts
  · intro owner a triggeredByEvent artifacts parts
    rw [hassemble]
    rcases containerPath_cases hs owner with
      ⟨refusal, hp⟩ | ⟨path, x, c, -, hx, rfl, hc, -⟩
    · have hrefused := addFlowElement_refused hp
      cases parts.foldlM Container.extend .empty with
      | error clash => exact .of_refused ⟨clash, s, rfl⟩ (performAll_refused (hrefused _) _)
      | ok c => exact .of_refused ⟨refusal, s, hrefused _⟩ (performAll_refused (hrefused _) _)
    · have hsub : (FlowElement.subProcess a triggeredByEvent [] [] artifacts).container? =
          some .empty := rfl
      exact (hs.sound_subProcesses hx hc hsub).sameEffect hs .empty parts
  · intro c parts
    have hsame := collaborations.sameEffect hs (c.holding [] [] [] []) parts
    rw [show collaborations.add = Collaboration.add from rfl, Collaboration.foldl_add] at hsame
    exact hsame
  · intro identity name o os implementationRef
    obtain ⟨i, rfl, hfirst, hall⟩ := Interface.of_cons identity name o os implementationRef
    exact ⟨i, _, hfirst, hall, interfaces.sameEffect hs i os⟩

/-- A process with a flow, a lane set and the task at both ends of the flow, given in this order. -/
theorem Reachable.sameEffect_stepwise_loop :
    let s := Scope.fresh ⟨"Defs"⟩ "urn:t"
    let flow : SequenceFlow := ⟨⟨.bare ⟨"f"⟩, none, []⟩, ⟨⟨"a"⟩⟩, ⟨⟨"a"⟩⟩, none, none⟩
    let task : FlowElement := .task (.bare ⟨"a"⟩) .plain
    let laneSet : LaneSet := ⟨.bare ⟨"l"⟩, none, []⟩
    let p : Process := .bare ⟨"p"⟩
    ∃ outcome t t',
      addBuilt (do
        let container ← Container.assemble [.sequenceFlow flow, task] [laneSet]
        return .addRoot (.process { p with container })) s = .ok outcome t ∧
      performAll [.addRoot (.process p), .addFlowElement ⟨"p"⟩ (.sequenceFlow flow),
        .addLaneSet ⟨"p"⟩ laneSet, .addFlowElement ⟨"p"⟩ task] s = .ok () t' ∧
      t.Identical t' := by
  intro s flow task laneSet p
  obtain ⟨t', hrun⟩ : ∃ t', performAll [.addRoot (.process p),
      .addFlowElement ⟨"p"⟩ (.sequenceFlow flow), .addLaneSet ⟨"p"⟩ laneSet,
      .addFlowElement ⟨"p"⟩ task] s = .ok () t' := ⟨_, rfl⟩
  obtain ⟨processes, -⟩ := Reachable.sameEffect_stepwise (.fresh ⟨"Defs"⟩ "urn:t")
  obtain ⟨outcome, t, hatOnce, hsame⟩ := (processes p
    [.flowElement (.sequenceFlow flow), .laneSet laneSet, .flowElement task]).exists_of_ok hrun
  exact ⟨outcome, t, t', hatOnce, hrun, hsame⟩

end BpmnModel
