import BpmnModel.Proofs.Artifacts
import BpmnModel.Proofs.Conversations

/-!
# Collaborations, written and read back
-/

namespace BpmnModel

variable {n : Node}

/-! ## Participants and message flows -/

namespace Multiplicity

/-- Bounds that are counts in order pass the check. -/
theorem ofInts_of_counts {minimum n : Int} {least most : UInt32}
    (hleast : countOfInt? minimum = some least) (hmost : countOfInt? n = some most)
    (hone : ¬ n < 1) (hle : ¬ n < minimum) (h : 1 ≤ most ∧ least ≤ most) :
    ofInts minimum (some n) =
      .ok ⟨least, some most, by simpa using h.1, by simpa using h.2⟩ := by
  unfold ofInts
  simp only [hleast, hmost, hone, hle, h, if_false, and_self, dite_true]

theorem ofInts_none {minimum : Int} {least : UInt32} (h : countOfInt? minimum = some least) :
    ofInts minimum none = .ok (unbounded least) := by
  unfold ofInts
  rw [h]

theorem ofInts_eq (m : Multiplicity) :
    ofInts m.minimum.toNat (m.maximum.map fun c => (c.toNat : Int)) = .ok m := by
  obtain ⟨minimum, maximum, hone, hle⟩ := m
  cases maximum with
  | none => exact ofInts_none (countOfInt?_toNat minimum)
  | some most =>
    have h : 1 ≤ most ∧ minimum ≤ most := ⟨hone most rfl, hle most rfl⟩
    have hone : 1 ≤ most.toNat := by simpa using UInt32.le_iff_toNat_le.mp h.1
    have hle := UInt32.le_iff_toNat_le.mp h.2
    exact ofInts_of_counts (countOfInt?_toNat minimum) (countOfInt?_toNat most) (by omega)
      (by omega) h

/-- The reader in terms of the two numbers that it finds. -/
theorem ofNode_of_integers {minimum : Int} {maximum : Option Int}
    (hmin : n.integer? "minimum" = .ok (some minimum)) (hmax : n.integer? "maximum" = .ok maximum)
    (hclosed : n.Closed ["minimum", "maximum"]) (hcontent : n.content = []) :
    ofNode n = checked (ofInts minimum maximum) := by
  unfold ofNode
  simp only [hmin, hmax, ok_bind, Option.getD_some, n.finish_of_closed hclosed,
    n.noContent_of_content hcontent]

@[simp]
theorem ofNode_toNode (m : Multiplicity) : ofNode m.toNode = .ok m := by
  have hmin : m.toNode.integer? "minimum" = .ok (some (m.minimum.toNat : Int)) := by simp [toNode]
  have hmax : m.toNode.integer? "maximum" = .ok (m.maximum.map fun c => (c.toNat : Int)) := by
    simp [toNode]
  rw [ofNode_of_integers hmin hmax (by simp [toNode]) (by simp [toNode]), ofInts_eq, checked_ok]

@[simp]
theorem label_toNode (m : Multiplicity) : m.toNode.label = "participantMultiplicity" := by
  simp [toNode]

end Multiplicity

namespace Participant

theorem writes (p : Participant) : Writes p.toNode (Element.participant p).Carried
    (fun n => n.label = "participant" ∧ ofNode n = .ok p) := by
  refine .leaf "participant" _ rfl rfl nofun ?_
  intro h
  obtain ⟨identity, name, processRef, interfaceRefs, endPointRefs, multiplicity⟩ := p
  cases multiplicity with
  | none => simp [ofNode, Identity.ofNode_eq_ok h, multiplicityOfNodes]
  | some m =>
    simp [ofNode, Identity.ofNode_eq_ok h, multiplicityOfNodes, Node.isDocumentation]

theorem bears_of_read {p : Participant} (h : ofNode n = .ok p) :
    n.Bears p.identity ["id", "name", "processRef", "interfaceRefs", "endPointRefs"] ∧
      multiplicityOfNodes n n.content none = .ok p.multiplicity := by
  simp only [ofNode, bind_eq_ok, pure_eq_ok, Except.ok.injEq] at h
  obtain ⟨id, hid, identity, hi, -, -, -, -, -, -, -, -, ⟨⟩, hfinish, m, hm, rfl⟩ := h
  exact ⟨.of_read hid hi hfinish, hm⟩

/-- A multiplicity is written with an attribute, for which there has to be room. -/
theorem rewrites {p : Participant} (h : ofNode n = .ok p) : Rewrites 2 p.toNode n := by
  refine .leaf "participant" _ (bears_of_read h).1.identifies ?_
  intro k hb _ node hnode
  obtain ⟨j, rfl⟩ : ∃ j, k = j + 1 := ⟨k - 1, by omega⟩
  cases p.multiplicity with
  | none => simp [hnode]
  | some m => simp [hnode, Multiplicity.toNode]

end Participant

namespace MessageFlow

theorem writes (f : MessageFlow) : Writes f.toNode (Element.messageFlow f).Carried
    (fun n => n.label = "messageFlow" ∧ ofNode n = .ok f) := by
  refine .leaf "messageFlow" _ rfl rfl nofun ?_
  intro h
  simp [ofNode, Identity.ofNode_eq_ok h]

theorem isLeaf_of_read {f : MessageFlow} (h : ofNode n = .ok f) :
    n.IsLeaf f.identity ["id", "name", "sourceRef", "targetRef", "messageRef"] := by
  simp only [ofNode, bind_eq_ok, pure_eq_ok, Except.ok.injEq] at h
  obtain ⟨id, hid, -, -, -, -, -, -, -, -, ⟨⟩, hfinish, ⟨⟩, hcontent, identity, hi, rfl⟩ := h
  exact .of_read hid hi hfinish hcontent

theorem rewrites {f : MessageFlow} (h : ofNode n = .ok f) : Rewrites 0 f.toNode n :=
  .leaf "messageFlow" _ (isLeaf_of_read h).identifies (by simp)

end MessageFlow

namespace ConversationLink

theorem writes (l : ConversationLink) : Writes l.toNode (Element.conversationLink l).Carried
    (fun n => n.label = "conversationLink" ∧ ofNode n = .ok l) := by
  refine .leaf "conversationLink" _ rfl rfl nofun ?_
  intro h
  simp [ofNode, Identity.ofNode_eq_ok h]

theorem isLeaf_of_read {l : ConversationLink} (h : ofNode n = .ok l) :
    n.IsLeaf l.identity ["id", "name", "sourceRef", "targetRef"] := by
  simp only [ofNode, bind_eq_ok, pure_eq_ok, Except.ok.injEq] at h
  obtain ⟨id, hid, -, -, -, -, -, -, ⟨⟩, hfinish, ⟨⟩, hcontent, identity, hi, rfl⟩ := h
  exact .of_read hid hi hfinish hcontent

theorem rewrites {l : ConversationLink} (h : ofNode n = .ok l) : Rewrites 0 l.toNode n :=
  .leaf "conversationLink" _ (isLeaf_of_read h).identifies (by simp)

end ConversationLink

/-! ## Collaborations -/

theorem Roster.foldl_push_empty {α : Type} {name : α → Id} (r : Roster α name) :
    r.items.foldl push empty = r := ofList_items r

namespace Collaboration

theorem carried_iff (c : Collaboration) (id : Id) (f : Feature) :
    (Element.root (.collaboration c)).Carried id f ↔
      (id = c.identity.id ∧ (Element.root (.collaboration c)).Carries f) ∨
        (∃ p ∈ c.participants.items, (Element.participant p).Carried id f) ∨
        (∃ m ∈ c.messageFlows.items, (Element.messageFlow m).Carried id f) ∨
        (∃ m ∈ c.conversations.items, (Element.conversationNode m).Carried id f) ∨
        (∃ l ∈ c.links.items, (Element.conversationLink l).Carried id f) ∨
        (∃ a ∈ c.artifacts, (Element.artifact a).Carried id f) ∨
        ∃ k ∈ c.correlationKeys, (Element.correlationKey k).Carried id f := by
  rw [Element.carried_iff, Element.children]
  simp only [List.mem_append, or_and_right, exists_or, Element.mem_children_map, or_assoc]
  rfl

/-- Children of one kind are added one by one. -/
theorem foldlM_addChild {α : Type} {good : α → Node → Prop}
    {put : Collaboration → α → Collaboration}
    (hput : ∀ c x m, good x m → addChild n c m = .ok (put c x)) {xs : List α} {ms : List Node}
    (h : List.Forall₂ good xs ms) (c : Collaboration) :
    ms.foldlM (addChild n) c = .ok (xs.foldl put c) := by
  induction h generalizing c with
  | nil => rfl
  | cons hx _ ih => rw [List.foldlM_cons, hput _ _ _ hx, ok_bind, ih, List.foldl_cons]

theorem addChild_participant (c : Collaboration) (p : Participant) (m : Node)
    (h : m.label = "participant" ∧ Participant.ofNode m = .ok p) :
    addChild n c m = .ok (c.pushParticipant p) := by
  unfold addChild
  simp [h.1, h.2, Artifact.reader?, ConversationNode.isLabel]

theorem addChild_messageFlow (c : Collaboration) (f : MessageFlow) (m : Node)
    (h : m.label = "messageFlow" ∧ MessageFlow.ofNode m = .ok f) :
    addChild n c m = .ok (c.pushMessageFlow f) := by
  unfold addChild
  simp [h.1, h.2, Artifact.reader?, ConversationNode.isLabel]

theorem addChild_link (c : Collaboration) (l : ConversationLink) (m : Node)
    (h : m.label = "conversationLink" ∧ ConversationLink.ofNode m = .ok l) :
    addChild n c m = .ok (c.pushLink l) := by
  unfold addChild
  simp [h.1, h.2, Artifact.reader?, ConversationNode.isLabel]

theorem addChild_conversation (c : Collaboration) (d : ConversationNode) (m : Node)
    (h : d.ReadFrom m) : addChild n c m = .ok (c.pushConversation d) := by
  have hreader : Artifact.reader? m.label = none := by
    have := h.1
    simp only [ConversationNode.isLabel, Bool.or_eq_true, decide_eq_true_eq] at this
    rcases this with (h | h) | h <;> rw [h] <;> rfl
  unfold addChild
  rw [hreader]
  simp [h.1, h.2]

theorem addChild_artifact (c : Collaboration) (a : Artifact) (m : Node) (h : a.ReadFrom m) :
    addChild n c m = .ok { c with artifacts := c.artifacts ++ [a] } := by
  obtain ⟨read, hread, hm⟩ := h
  unfold addChild
  simp [hread, hm]

/-- The lists of a collaboration are filled independently. -/
theorem foldl_push (c : Collaboration) (ps : List Participant) (fs : List MessageFlow)
    (ds : List ConversationNode) (ls : List ConversationLink) (as : List Artifact) :
    as.foldl (fun c a => { c with artifacts := c.artifacts ++ [a] })
        (ls.foldl pushLink (ds.foldl pushConversation (fs.foldl pushMessageFlow
          (ps.foldl pushParticipant c)))) =
      { c with
        participants := ps.foldl Roster.push c.participants
        messageFlows := fs.foldl Roster.push c.messageFlows
        conversations := ds.foldl Roster.push c.conversations
        links := ls.foldl Roster.push c.links
        artifacts := c.artifacts ++ as } := by
  induction ps generalizing c with
  | cons p ps ih => exact ih _
  | nil =>
    induction fs generalizing c with
    | cons f fs ih => exact ih _
    | nil =>
      induction ds generalizing c with
      | cons d ds ih => exact ih _
      | nil =>
        induction ls generalizing c with
        | cons l ls ih => exact ih _
        | nil =>
          induction as generalizing c with
          | nil => simp
          | cons a as ih =>
            refine (ih { c with artifacts := c.artifacts ++ [a] }).trans ?_
            simp

/-- The node is that of a collaboration and is read as it. -/
def ReadFrom (c : Collaboration) (n : Node) : Prop :=
  n.label = (if c.isGlobal then "globalConversation" else "collaboration") ∧
    ofNode c.isGlobal n = .ok c

/-- The node of a collaboration without keys and mappings is read back. -/
theorem readFrom_pushAll {c : Collaboration} {ps fs ds ls as : List Node}
    (hv : c.identity.extensionValues = [])
    (hplain : c.correlationKeys = [] ∧ c.participantAssociations = [] ∧
      c.messageFlowAssociations = [] ∧ c.conversationAssociations = [])
    (hps : List.Forall₂ (fun p n => n.label = "participant" ∧ Participant.ofNode n = .ok p)
      c.participants.items ps)
    (hfs : List.Forall₂ (fun f n => n.label = "messageFlow" ∧ MessageFlow.ofNode n = .ok f)
      c.messageFlows.items fs)
    (hds : List.Forall₂ ConversationNode.ReadFrom c.conversations.items ds)
    (hls : List.Forall₂ (fun l n => n.label = "conversationLink" ∧ ConversationLink.ofNode n = .ok l)
      c.links.items ls)
    (has : List.Forall₂ Artifact.ReadFrom c.artifacts as) :
    c.ReadFrom ((((Node.ofIdentity (if c.isGlobal then "globalConversation" else "collaboration")
      c.identity).setText? "name" c.name).setFlag "isClosed" c.isClosed false).pushAll
        (ps ++ fs ++ ds ++ ls ++ as)) := by
  obtain ⟨hk, hp, hf, hc⟩ := hplain
  have hpd := Node.allContent_of_forall₂ hps (by decide)
  have hfd := Node.allContent_of_forall₂ hfs (by decide)
  have hdd : Node.AllContent ds :=
    forall_of_forall₂ hds fun _ _ => ConversationNode.ReadFrom.not_documentation
  have hld := Node.allContent_of_forall₂ hls (by decide)
  have had : Node.AllContent as :=
    forall_of_forall₂ has fun _ _ => Artifact.ReadFrom.not_documentation
  refine ⟨by simp, ?_⟩
  simp only [ofNode]
  simp [Identity.ofNode_eq_ok hv, hpd, hfd, hdd, hld, had, foldlM_addChild addChild_participant hps,
    foldlM_addChild addChild_messageFlow hfs, foldlM_addChild addChild_conversation hds,
    foldlM_addChild addChild_link hls, foldlM_addChild addChild_artifact has, foldl_push]
  cases c
  simp_all [bare, Roster.foldl_push_empty]

theorem writes (c : Collaboration) :
    Writes c.toNode (Element.root (.collaboration c)).Carried c.ReadFrom := by
  unfold toNode
  cases hk : c.correlationKeys with
  | cons k ks =>
    refine .inr ⟨c.identity.id, .correlationKeys, rfl, (carried_iff _ _ _).mpr ?_⟩
    exact .inl ⟨rfl, .inr (.collaborationKeys (by simp [hk]))⟩
  | nil =>
    by_cases hm : c.participantAssociations = [] ∧ c.messageFlowAssociations = [] ∧
        c.conversationAssociations = []
    · obtain ⟨hp, hf, hc⟩ := hm
      rw [hp, hf, hc, ConversationNode.allToNodes_eq]
      refine Writes.extend ((c.identity.writes _).bind fun n hn =>
        (Writes.mapM fun p _ => p.writes).bind fun ps hps =>
        (Writes.mapM fun f _ => f.writes).bind fun fs hfs =>
        (Writes.mapM fun d _ => d.writes).bind fun ds hds =>
        (Writes.mapM fun l _ => l.writes).bind fun ls hls =>
        (Writes.mapM fun a _ => a.writes).map fun as has => ?_) ?_ ?_
      · obtain ⟨rfl, hv⟩ := hn
        exact readFrom_pushAll hv ⟨hk, hp, hf, hc⟩ hps hfs hds hls has
      · intro id f hcarried
        rw [carried_iff]
        rcases hcarried with ⟨rfl, rfl, hv⟩ | h | h | h | h | h
        · exact .inl ⟨rfl, .inl ⟨rfl, hv⟩⟩
        · exact .inr (.inl h)
        · exact .inr (.inr (.inl h))
        · exact .inr (.inr (.inr (.inl h)))
        · exact .inr (.inr (.inr (.inr (.inl h))))
        · exact .inr (.inr (.inr (.inr (.inr (.inl h)))))
      · intro m _ hno id f hcarried
        rw [carried_iff] at hcarried
        rcases hcarried with ⟨rfl, ⟨rfl, hv⟩ | h⟩ | h | h | h | h | h | ⟨k, h, -⟩
        · exact hno _ _ (.inl ⟨rfl, rfl, hv⟩)
        · cases h with
          | collaborationKeys h => exact h hk
          | collaborationMappings h => simp [hp, hf, hc] at h
        · exact hno id f (.inr (.inl h))
        · exact hno id f (.inr (.inr (.inl h)))
        · exact hno id f (.inr (.inr (.inr (.inl h))))
        · exact hno id f (.inr (.inr (.inr (.inr (.inl h)))))
        · exact hno id f (.inr (.inr (.inr (.inr (.inr h)))))
        · rw [hk] at h
          cases h
    · have hsome : (!c.participantAssociations.isEmpty || !c.messageFlowAssociations.isEmpty ||
          !c.conversationAssociations.isEmpty) = true := by
        simp only [not_and_or] at hm
        simpa [or_assoc] using hm
      rw [hsome]
      refine .inr ⟨c.identity.id, .associationMappings, rfl, (carried_iff _ _ _).mpr ?_⟩
      exact .inl ⟨rfl, .inr (.collaborationMappings (by simpa only [not_and_or] using hm))⟩

/-- What a collaboration holds that is being read from the children of a node. -/
structure ReadBelow (n : Node) (isGlobal : Bool) (identity : Identity) (c : Collaboration) :
    Prop where
  isGlobal : c.isGlobal = isGlobal
  identity : c.identity = identity
  keys : c.correlationKeys = []
  mappings : c.participantAssociations = [] ∧ c.messageFlowAssociations = [] ∧
    c.conversationAssociations = []
  participants : ∀ p ∈ c.participants.items, ∃ m ∈ n.children, Participant.ofNode m = .ok p
  messageFlows : ∀ f ∈ c.messageFlows.items, ∃ m ∈ n.children, MessageFlow.ofNode m = .ok f
  conversations : ∀ d ∈ c.conversations.items, ∃ m ∈ n.children, ConversationNode.ofNode m = .ok d
  links : ∀ l ∈ c.links.items, ∃ m ∈ n.children, ConversationLink.ofNode m = .ok l
  artifacts : ∀ a ∈ c.artifacts, ∃ m ∈ n.children, Artifact.ReadFrom a m

/-- One more thing that was read from a child. -/
theorem forall_concat {α : Type} {xs : List α} {x : α} {good : α → Node → Prop} {m : Node}
    (h : ∀ y ∈ xs, ∃ m ∈ n.children, good y m) (hm : m ∈ n.children) (hx : good x m) :
    ∀ y ∈ xs ++ [x], ∃ m ∈ n.children, good y m := by
  intro y hy
  rcases List.mem_append.mp hy with hy | hy
  · exact h y hy
  · rw [List.mem_singleton.mp hy]
    exact ⟨m, hm, hx⟩

theorem ReadBelow.addChild {isGlobal : Bool} {identity : Identity} {c c' : Collaboration} {m : Node}
    (h : c.ReadBelow n isGlobal identity) (hm : m ∈ n.children)
    (hadd : Collaboration.addChild n c m = .ok c') : c'.ReadBelow n isGlobal identity := by
  unfold Collaboration.addChild at hadd
  split at hadd
  · rename_i read hread
    obtain ⟨a, ha, hc⟩ := bind_eq_ok.mp hadd
    cases hc
    exact { h with artifacts := forall_concat h.artifacts hm ⟨read, hread, ha⟩ }
  · split at hadd
    · obtain ⟨d, hd, rfl⟩ := map_eq_ok.mp hadd
      exact { h with conversations := forall_concat h.conversations hm hd }
    · split at hadd
      · obtain ⟨p, hp, rfl⟩ := map_eq_ok.mp hadd
        exact { h with participants := forall_concat h.participants hm hp }
      · obtain ⟨f, hf, rfl⟩ := map_eq_ok.mp hadd
        exact { h with messageFlows := forall_concat h.messageFlows hm hf }
      · obtain ⟨l, hl, rfl⟩ := map_eq_ok.mp hadd
        exact { h with links := forall_concat h.links hm hl }
      · cases hadd

theorem ReadBelow.foldlM {isGlobal : Bool} {identity : Identity} {c c' : Collaboration}
    {ms : List Node} (h : c.ReadBelow n isGlobal identity) (hms : ∀ m ∈ ms, m ∈ n.children)
    (hfold : ms.foldlM (Collaboration.addChild n) c = .ok c') :
    c'.ReadBelow n isGlobal identity := by
  induction ms generalizing c with
  | nil =>
    cases hfold
    exact h
  | cons m ms ih =>
    obtain ⟨d, hd, hrest⟩ := bind_eq_ok.mp hfold
    exact ih (h.addChild (hms m List.mem_cons_self) hd)
      (fun x hx => hms x (List.mem_cons_of_mem m hx)) hrest

/-- A collaboration that was read has the identity of the node, and what is below comes from the
children. -/
theorem readBelow_of_read {c : Collaboration} {isGlobal : Bool} (h : ofNode isGlobal n = .ok c) :
    c.ReadBelow n isGlobal c.identity ∧ n.Identifies c.identity := by
  simp only [ofNode, bind_eq_ok] at h
  obtain ⟨id, hid, identity, hi, name, -, isClosed, -, -, -, hfold⟩ := h
  have hbelow : c.ReadBelow n isGlobal identity := by
    have hempty {α : Type} {good : α → Node → Prop} :
        ∀ x ∈ ([] : List α), ∃ m ∈ n.children, good x m := by simp
    refine ReadBelow.foldlM ⟨rfl, rfl, rfl, ⟨rfl, rfl, rfl⟩, hempty, hempty, hempty, hempty, hempty⟩
      ?_ hfold
    exact fun m => Node.mem_children_of_mem_content
  rw [hbelow.identity]
  exact ⟨hbelow, .of_read hid hi⟩

/-- What `toNode` writes around what was written of the parts. -/
theorem toNode_of_parts {c : Collaboration} {isGlobal : Bool} {identity : Identity}
    {ps fs ds ls as : List Node} (h : c.ReadBelow n isGlobal identity)
    (hv : c.identity.extensionValues = [])
    (hps : c.participants.items.mapM Participant.toNode = .ok ps)
    (hfs : c.messageFlows.items.mapM MessageFlow.toNode = .ok fs)
    (hds : c.conversations.items.mapM ConversationNode.toNode = .ok ds)
    (hls : c.links.items.mapM ConversationLink.toNode = .ok ls)
    (has : c.artifacts.mapM Artifact.toNode = .ok as) :
    c.toNode = .ok ((((Node.ofIdentity (if isGlobal then "globalConversation" else "collaboration")
      c.identity).setText? "name" c.name).setFlag "isClosed" c.isClosed false).pushAll
        (ps ++ fs ++ ds ++ ls ++ as)) := by
  obtain ⟨hp, hf, hc⟩ := h.mappings
  unfold toNode
  rw [h.keys, hp, hf, hc, hps, hfs, ConversationNode.allToNodes_eq, hds, hls, has, Identity.toNode,
    hv, h.isGlobal]
  rfl

/-- What was read can be written: a document holds no keys and no mappings. -/
theorem rewrites {c : Collaboration} {isGlobal : Bool} (h : ofNode isGlobal n = .ok c) :
    Rewrites 3 c.toNode n := by
  obtain ⟨hbelow, hidentifies⟩ := readBelow_of_read h
  obtain ⟨ps, hps, hpfits⟩ := Rewrites.mapM fun p hp =>
    (hbelow.participants p hp).imp fun m hm => ⟨hm.1, Participant.rewrites hm.2⟩
  obtain ⟨fs, hfs, hffits⟩ := Rewrites.mapM fun f hf =>
    (hbelow.messageFlows f hf).imp fun m hm => ⟨hm.1, MessageFlow.rewrites hm.2⟩
  obtain ⟨ds, hds, hdfits⟩ := Rewrites.mapM fun d hd =>
    (hbelow.conversations d hd).imp fun m hm => ⟨hm.1, ConversationNode.rewrites hm.2⟩
  obtain ⟨ls, hls, hlfits⟩ := Rewrites.mapM fun l hl =>
    (hbelow.links l hl).imp fun m hm => ⟨hm.1, ConversationLink.rewrites hm.2⟩
  obtain ⟨as, has, hafits⟩ := Rewrites.mapM fun a ha =>
    (hbelow.artifacts a ha).imp fun m hm => ⟨hm.1, hm.2.rewrites⟩
  refine ⟨_, toNode_of_parts hbelow hidentifies.extensionValues hps hfs hds hls has,
    fun k hb hk => ?_⟩
  obtain ⟨j, rfl, hj⟩ := hidentifies.fits hk
    (if isGlobal then "globalConversation" else "collaboration")
  have h0 : 0 ≤ j := Nat.zero_le j
  simp only [Node.fits_pushAll, List.forall_mem_append]
  exact ⟨by simpa using hj, ⟨⟨⟨hpfits j (by omega) hk, hffits j h0 hk⟩, hdfits j h0 hk⟩,
    hlfits j h0 hk⟩, hafits j h0 hk⟩

end Collaboration

end BpmnModel
