import BpmnModel.Proofs.DocumentText
import BpmnModel.Proofs.RoundTrip
import BpmnModel.Workbench

/-!
# Exporting what was loaded, and loading it again

Whatever was loaded is exported, and the text is not deeper than the loaded one.  An exporter that
the configuration names is written last, so it may stand behind an exporter version that the model
names.

* `ExportSettings.sign` — the header with the exporter that the configuration names.
* `Scope.ReadAt.exists_children` — what was read is written, and fits where it was read.
* `Scope.ReadAt.ofDocument_stamp` — what was written is read again, with the exporter named.
* `Config.reload` — the text of what was loaded is loaded again.
-/

namespace BpmnModel

variable {n : Node} {s : Scope}

/-! ## Naming the exporter -/

namespace Node

variable (n)

/-- A setter that does nothing in one case. -/
theorem set?_ite (p : Prop) [Decidable p] (a : String) (v : Option Value) :
    (if p then n.set? a v else n) = n.set? a (if p then v else none) := by
  split <;> rfl

/-- An attribute that is new is set behind the others. -/
theorem entries_set? {a : String} (h : n.attribute? a = none) (v : Value) :
    (n.set? a (some v)).attributes.entries = n.attributes.entries ++ [(a, v)] := by
  apply Attributes.insertEntry_of_not_mem
  intro hmem
  obtain ⟨p, hp, rfl⟩ := List.mem_map.mp hmem
  have hne := List.lookup_eq_none_iff.mp h p hp
  simp at hne

end Node

theorem Value.readText_eq_ok {label name : String} {v : Option Value} {t : Option String} :
    readText label name v = .ok t ↔ v = t.map .text := by
  constructor
  · intro h
    unfold readText at h
    split at h
    · cases h
      rfl
    · cases h
      rfl
    · cases h
  · rintro rfl
    exact readText_map label name t

namespace ExportSettings

variable (e : ExportSettings)

/-- The header, with what the settings name where it names nobody. -/
def sign (h : Header) : Header :=
  { h with
    exporter := h.exporter.or e.exporter
    exporterVersion := h.exporterVersion.or e.exporterVersion }

theorem stamp_root (d : Document) : (e.stamp d).root =
    (d.root.set? "exporter" (if (d.root.attribute? "exporter").isNone then e.exporter.map .text
      else none)).set? "exporterVersion" (if (d.root.attribute? "exporterVersion").isNone then
        e.exporterVersion.map .text else none) := by
  have hne : ¬ "exporter" = "exporterVersion" := by decide
  simp only [stamp, Node.setText?_eq, Node.set?_ite, Node.attribute?_set?, if_neg hne]

theorem differsIn_stamp (d : Document) :
    d.root.DiffersIn ["exporter", "exporterVersion"] (e.stamp d).root := by
  rw [stamp_root]
  exact ((Node.DiffersIn.refl _ _).set? (by simp)).set? (by simp)

theorem exporter_stamp (d : Document) : (e.stamp d).root.attribute? "exporter" =
    (d.root.attribute? "exporter").or (e.exporter.map .text) := by
  rw [stamp_root]
  cases h : d.root.attribute? "exporter" <;> simp [h]

theorem exporterVersion_stamp (d : Document) : (e.stamp d).root.attribute? "exporterVersion" =
    (d.root.attribute? "exporterVersion").or (e.exporterVersion.map .text) := by
  rw [stamp_root]
  cases h : d.root.attribute? "exporterVersion" <;> simp [h]

/-- The stamp is read with the header. -/
theorem ofNode_stamp {d : Document} {h : Header} (hof : Header.ofNode d.root = .ok h) :
    Header.ofNode (e.stamp d).root = .ok (e.sign h) := by
  simp only [Header.ofNode, bind_eq_ok, pure_eq_ok, Except.ok.injEq] at hof ⊢
  obtain ⟨id, hid, target, htarget, identity, hi, name, hname, language, hlanguage, type, htype,
    exporter, hexporter, version, hversion, done, hfinish, rfl⟩ := hof
  have hdiffers := e.differsIn_stamp d
  refine ⟨id, ?_, target, ?_, identity, ?_, name, ?_, language, ?_, type, ?_, exporter.or e.exporter,
    ?_, version.or e.exporterVersion, ?_, done, ?_, rfl⟩
  · simp only [Node.id]
    rw [hdiffers.text (by decide)]
    exact hid
  · rw [hdiffers.text (by decide)]
    exact htarget
  · rw [Identity.ofNode, hdiffers.documentation]
    exact hi
  · rw [hdiffers.text? (by decide)]
    exact hname
  · rw [hdiffers.text? (by decide)]
    exact hlanguage
  · rw [hdiffers.text? (by decide)]
    exact htype
  · rw [Node.text?_eq, Value.readText_eq_ok] at hexporter ⊢
    rw [exporter_stamp, hexporter]
    cases exporter <;> rfl
  · rw [Node.text?_eq, Value.readText_eq_ok] at hversion ⊢
    rw [exporterVersion_stamp, hversion]
    cases version <;> rfl
  · have hclosed := hdiffers.closed _ (by simp) ((Node.finish_eq_ok _).mp hfinish)
    exact (Node.finish_eq_ok _).mpr hclosed

/-! ## The order of the attributes -/

/-- The configured exporter comes to stand behind the version that the header names. -/
def Reorders (h : Header) : Prop :=
  h.exporter = none ∧ h.exporterVersion ≠ none ∧ e.exporter ≠ none

end ExportSettings

/-- The roots differ in nothing but the order of two attributes, which are the last ones. -/
structure Document.Swapped (a b : String) (d d' : Document) : Prop where
  label : d'.root.label = d.root.label
  children : d'.root.children = d.root.children
  entries : ∃ es v w, d.root.attributes.entries = es ++ [(b, w), (a, v)] ∧
    d'.root.attributes.entries = es ++ [(a, v), (b, w)]

/-- So their texts differ. -/
theorem Document.Swapped.toText_ne {a b : String} {d d' : Document} (h : d.Swapped a b d')
    (hne : a ≠ b) (hfits : d.Fits) : d'.toText ≠ d.toText := by
  intro htext
  have hfits' : d'.Fits := by
    show ∀ c ∈ d'.root.children, c.Fits 62
    rw [h.children]
    exact hfits
  have hsome : some d' = some d := by
    rw [← Document.ofText?_toText hfits', htext, Document.ofText?_toText hfits]
  cases hsome
  obtain ⟨es, v, w, hentries, hentries'⟩ := h.entries
  have hlast := List.append_cancel_left (hentries.symm.trans hentries')
  simp only [List.cons.injEq, Prod.mk.injEq] at hlast
  exact hne hlast.1.1.symm

namespace Header

/-- The header without an exporter. -/
def unsigned (h : Header) : Header := { h with exporter := none, exporterVersion := none }

theorem node_eq (h : Header) : h.node = (h.unsigned.node.set? "exporter"
    (h.exporter.map .text)).set? "exporterVersion" (h.exporterVersion.map .text) := rfl

@[simp]
theorem exporter_node (h : Header) :
    h.node.attribute? "exporter" = h.exporter.map .text := by
  simp [node]

@[simp]
theorem exporterVersion_node (h : Header) :
    h.node.attribute? "exporterVersion" = h.exporterVersion.map .text := by
  simp [node]

end Header

namespace ExportSettings

variable (e : ExportSettings) (h : Header) (cs : List Node)

theorem stamp_header : (e.stamp ⟨h.node.pushAll cs⟩).root =
    ((h.node.pushAll cs).set? "exporter" (if h.exporter.isNone then e.exporter.map .text
      else none)).set? "exporterVersion" (if h.exporterVersion.isNone then
        e.exporterVersion.map .text else none) := by
  rw [stamp_root]
  simp

theorem stamp_of_not_reorders {h : Header} (hr : ¬ e.Reorders h) :
    e.stamp ⟨h.node.pushAll cs⟩ = ⟨(e.sign h).node.pushAll cs⟩ := by
  have hroot : (e.stamp ⟨h.node.pushAll cs⟩).root = (e.sign h).node.pushAll cs := by
    rw [stamp_header]
    obtain ⟨identity, name, target, language, type, exporter, version⟩ := h
    obtain ⟨x, v⟩ := e
    cases exporter with
    | some x' => cases version <;> cases v <;> rfl
    | none =>
      cases version with
      | none => cases x <;> cases v <;> rfl
      | some v' =>
        cases x with
        | none => rfl
        | some x => exact absurd ⟨rfl, nofun, nofun⟩ hr
  rw [← hroot]

/-- A second stamp changes nothing. -/
theorem stamp_sign : e.stamp ⟨(e.sign h).node.pushAll cs⟩ = ⟨(e.sign h).node.pushAll cs⟩ := by
  have hr : ¬ e.Reorders (e.sign h) := by
    rintro ⟨hx, -, he⟩
    simp only [sign, Option.or_eq_none_iff] at hx
    exact he hx.2
  have hsign : e.sign (e.sign h) = e.sign h := by
    simp [sign, Option.or_assoc, Option.or_self]
  rw [e.stamp_of_not_reorders cs hr, hsign]

theorem stamp_of_reorders {h : Header} (hr : e.Reorders h) :
    Document.Swapped "exporter" "exporterVersion" (e.stamp ⟨h.node.pushAll cs⟩)
      ⟨(e.sign h).node.pushAll cs⟩ := by
  obtain ⟨hx, hv, he⟩ := hr
  obtain ⟨v, hv⟩ := Option.ne_none_iff_exists'.mp hv
  obtain ⟨x, he⟩ := Option.ne_none_iff_exists'.mp he
  have hstamped : (e.stamp ⟨h.node.pushAll cs⟩).root =
      ((h.unsigned.node.set? "exporterVersion" (some (.text v))).set? "exporter"
        (some (.text x))).pushAll cs := by
    rw [stamp_header, h.node_eq, hx, hv, he]
    rfl
  have hsigned : (e.sign h).node.pushAll cs =
      ((h.unsigned.node.set? "exporter" (some (.text x))).set? "exporterVersion"
        (some (.text v))).pushAll cs := by
    rw [Header.node_eq]
    simp only [sign, hx, hv, he]
    rfl
  have hnone : h.unsigned.node.attribute? "exporter" = none := h.unsigned.exporter_node
  have hnone' : h.unsigned.node.attribute? "exporterVersion" = none :=
    h.unsigned.exporterVersion_node
  refine ⟨?_, ?_, h.unsigned.node.attributes.entries, .text x, .text v, ?_, ?_⟩
  · simp [hstamped, hsigned]
  · simp [hstamped, hsigned]
  · rw [hstamped]
    show Attributes.entries (Node.attributes (Node.set? _ _ _)) = _
    rw [Node.entries_set?, Node.entries_set? _ hnone', List.append_assoc, List.singleton_append]
    rw [Node.attribute?_set?, if_neg (by decide), hnone]
  · show Attributes.entries (Node.attributes ((e.sign h).node.pushAll cs)) = _
    rw [hsigned]
    show Attributes.entries (Node.attributes (Node.set? _ _ _)) = _
    rw [Node.entries_set?, Node.entries_set? _ hnone, List.append_assoc, List.singleton_append]
    rw [Node.attribute?_set?, if_neg (by decide), hnone']

end ExportSettings

/-! ## Writing what was read -/

namespace Scope

theorem toDocument_eq (hextensions : s.extensions = [])
    (hv : s.header.identity.extensionValues = []) : s.toDocument = (do
      let roots ← s.roots.mapM Root.toNode
      let relationships ← s.relationships.mapM Relationship.toNode
      return ⟨s.header.node.pushAll
        (s.imports.map (·.declaration.toNode) ++ roots ++ relationships)⟩) := by
  have hheader : s.header.toNode = .ok s.header.node := by
    rw [Header.toNode, Identity.toNode, hv]
    rfl
  simp [toDocument, hextensions, hheader]

/-- The children are written as they are under any header. -/
theorem ReadAt.exists_children (h : s.ReadAt n) : ∃ cs,
    (∀ t : Scope, t.extensions = [] → t.header.identity.extensionValues = [] → t.roots = s.roots →
      t.relationships = s.relationships → t.imports = s.imports →
        t.toDocument = .ok ⟨t.header.node.pushAll cs⟩) ∧
      ∀ k, 3 ≤ k → n.Fits (k + 1) → ∀ c ∈ cs, c.Fits k := by
  have hroots : ∀ r ∈ s.roots, ∃ c ∈ n.children, Rewrites 3 r.toNode c := by
    intro r hr
    obtain ⟨c, hc, parent, hread⟩ := h.roots r hr
    exact ⟨c, hc, (Root.of_read hread).1⟩
  have hrelationships : ∀ r ∈ s.relationships, ∃ c ∈ n.children, Rewrites 0 r.toNode c := by
    intro r hr
    obtain ⟨c, hc, hread⟩ := h.relationships r hr
    exact ⟨c, hc, Relationship.rewrites hread⟩
  obtain ⟨rns, hrns, hrfits⟩ := Rewrites.mapM hroots
  obtain ⟨lns, hlns, hlfits⟩ := Rewrites.mapM hrelationships
  refine ⟨s.imports.map (·.declaration.toNode) ++ rns ++ lns, ?_, ?_⟩
  · intro t hextensions hv hr hrel hi
    rw [toDocument_eq hextensions hv, hr, hrel, hrns, ok_bind, hlns, ok_bind, hi]
    rfl
  · intro k hk hn
    simp only [List.forall_mem_append]
    refine ⟨⟨fun c hc => ?_, hrfits k hk hn⟩, hlfits k (Nat.zero_le k) hn⟩
    obtain ⟨i, hi, rfl⟩ := List.mem_map.mp hc
    obtain ⟨m, hm, d, rfl, hd⟩ := h.imports i hi
    exact ImportDeclaration.fits_toNode hd (hn.child hm)

theorem ReadAt.proper (h : s.ReadAt n) : s.Proper := by
  intro p hp
  obtain ⟨e, he, hpe⟩ := mem_placed.mp hp
  have hx : p.element ∈ e.subtree := List.mem_map_of_mem hpe
  rcases List.mem_append.mp he with he | he
  · obtain ⟨r, hr, rfl⟩ := List.mem_map.mp he
    obtain ⟨c, -, parent, hread⟩ := h.roots r hr
    exact (Root.of_read hread).2.2 p.element hx
  · obtain ⟨r, -, rfl⟩ := List.mem_map.mp he
    have hflowless : (Element.relationship r).Flowless := trivial
    exact hflowless.proper p.element hx

theorem ReadAt.unbound (h : s.ReadAt n) : ∀ i ∈ s.imports, i.scope? = none := by
  intro i hi
  obtain ⟨-, -, d, rfl, -⟩ := h.imports i hi
  rfl

/-- The header fits where it was read. -/
theorem ReadAt.fits_header (h : s.ReadAt n) {k : Nat} (hn : n.Fits (k + 1)) :
    s.header.node.Fits (k + 1) := by
  obtain ⟨j, hj, hfits⟩ := h.header.fits hn Header.label
  cases hj
  simpa [Header.node] using hfits

/-- What describes a scope describes it also with a stamp. -/
theorem DescribedBy.stamp {d : Document} (h : s.DescribedBy d) (e : ExportSettings) :
    DescribedBy { s with header := e.sign s.header } (e.stamp d) where
  extensions := h.extensions
  label := (e.differsIn_stamp d).label.trans h.label
  header := e.ofNode_stamp h.header
  content := by
    obtain ⟨rns, lns, hcontent, hrest⟩ := h.content
    exact ⟨rns, lns, (e.differsIn_stamp d).content.trans hcontent, hrest⟩

/-- What was read is read again from what is written, stamped or not. -/
theorem ReadAt.ofDocument_stamp (h : s.ReadAt n) {d : Document} (hd : s.toDocument = .ok d)
    (e : ExportSettings) : ∃ registry,
      ofDocument (e.stamp d) = .ok { s with header := e.sign s.header, registry } := by
  have hdescribed : s.DescribedBy d := by
    rcases writes h.reachable.complete h.proper with ⟨d', hd', hwritten, -⟩ | ⟨_, _, herror, -⟩
    · cases hd.symm.trans hd'
      exact hwritten.describedBy
    · cases hd.symm.trans herror
  have hagrees : Agrees { s with header := e.sign s.header } :=
    ⟨h.reachable.agrees.records, h.reachable.agrees.reserved⟩
  obtain ⟨registry, hof⟩ := ofDocument_of_describedBy hagrees (hdescribed.stamp e)
  simp only [map_unbound_declaration h.unbound] at hof
  exact ⟨registry, hof⟩

theorem exists_of_load {text : String} (h : load text = .ok s) :
    ∃ d : Document, d.Fits ∧ s.ReadAt d.root := by
  rw [load, ofText] at h
  cases hd : Document.ofText? text with
  | none =>
    rw [hd] at h
    cases h
  | some d =>
    rw [hd] at h
    cases hof : ofDocument d with
    | error e =>
      simp only [hof] at h
      cases h
    | ok s' =>
      simp only [hof] at h
      cases h
      exact ⟨d, Document.fits_of_ofText? hd, readAt_of_ofDocument hof⟩

theorem load_toText {d : Document} (h : d.Fits) (hof : ofDocument d = .ok s) :
    load d.toText = .ok s := by
  rw [load, ofText, Document.ofText?_toText h]
  simp only [hof]
  rfl

end Scope

namespace Config

variable (c : Config)

variable {c} in
theorem writeText_of_write {d : Document} (h : c.write s = .ok d) : c.writeText s = .ok d.toText := by
  rw [writeText, h]
  rfl

/-- What was loaded is exported, and loaded and exported again with the exporter named. -/
theorem exists_reload {text : String} (h : Scope.load text = .ok s) :
    ∃ d registry d', c.write s = .ok d ∧ d.Fits ∧
      Scope.load d.toText = .ok { s with header := c.exporting.sign s.header, registry } ∧
      c.write { s with header := c.exporting.sign s.header, registry } = .ok d' ∧
      (¬ c.exporting.Reorders s.header → d' = d) ∧
      (c.exporting.Reorders s.header → d.Swapped "exporter" "exporterVersion" d') := by
  obtain ⟨source, hsource, hread⟩ := Scope.exists_of_load h
  obtain ⟨cs, hwrite, hcs⟩ := hread.exists_children
  have hv := hread.header.extensionValues
  have hs := hwrite s hread.extensions hv rfl rfl rfl
  let d := c.exporting.stamp ⟨s.header.node.pushAll cs⟩
  have hd : c.write s = .ok d := by
    rw [write, hs]
  have hfits : d.Fits := by
    show d.root.Fits (62 + 1)
    rw [ExportSettings.stamp_header]
    simpa [hread.fits_header hsource] using hcs 62 (by decide) hsource
  obtain ⟨registry, hof⟩ := hread.ofDocument_stamp hs c.exporting
  let r : Scope := { s with header := c.exporting.sign s.header, registry }
  have hr := hwrite r hread.extensions hv rfl rfl rfl
  have hd' : c.write r = .ok ⟨r.header.node.pushAll cs⟩ := by
    rw [write, hr]
    exact congrArg Except.ok (c.exporting.stamp_sign s.header cs)
  exact ⟨d, registry, _, hd, hfits, Scope.load_toText hfits hof, hd',
    fun hn => (c.exporting.stamp_of_not_reorders cs hn).symm, c.exporting.stamp_of_reorders cs⟩

/-- **What was loaded is exported and loaded again.**  The model that comes back is the same but
for the exporter, and is exported to the same text, unless the configured exporter had to be written
behind the version that the model names.  Then the two attributes change places. -/
theorem reload {text : String} (h : Scope.load text = .ok s) :
    ∃ d r, c.write s = .ok d ∧ c.writeText s = .ok d.toText ∧ Scope.load d.toText = .ok r ∧
      r = { s with header := c.exporting.sign s.header, registry := r.registry } ∧
      Scope.same { s with header := c.exporting.sign s.header } r = true ∧
      ∃ d', c.write r = .ok d' ∧ c.writeText r = .ok d'.toText ∧
        (¬ c.exporting.Reorders s.header → d' = d) ∧
        (c.exporting.Reorders s.header → d.Swapped "exporter" "exporterVersion" d') := by
  obtain ⟨source, -, hread⟩ := Scope.exists_of_load h
  obtain ⟨d, registry, d', hd, -, hload, hd', hsame, hswapped⟩ := c.exists_reload h
  have hequal : Scope.same { s with header := c.exporting.sign s.header }
      { s with header := c.exporting.sign s.header, registry } = true :=
    Scope.same_of_eq hread.reachable.complete hread.reachable.agrees.nodup_roots hread.unbound
      rfl rfl rfl rfl rfl
  exact ⟨d, _, hd, writeText_of_write hd, hload, rfl, hequal, d', hd', writeText_of_write hd', hsame,
    hswapped⟩

theorem reload_message :
    let c : Config := ⟨default, ⟨some "only", none⟩⟩
    let message : Node := (Node.bare "message").setText "id" "m"
    let source : Document := ⟨(((Node.bare "definitions").setText "id" "Defs").setText
      "targetNamespace" "urn:t").push message⟩
    ∃ s d r, Scope.load source.toText = .ok s ∧ c.write s = .ok d ∧ Scope.load d.toText = .ok r ∧
      r.roots = s.roots ∧ r.header.exporter = some "only" ∧ c.write r = .ok d := by
  intro c message source
  have hfits : source.Fits := by
    show source.root.Fits (61 + 1 + 1)
    simp [source, message]
  obtain ⟨s, hs⟩ : ∃ s, Scope.ofDocument source = .ok s := ⟨_, rfl⟩
  have hload := Scope.load_toText hfits hs
  have hheader : s.header =
      ⟨⟨⟨"Defs"⟩, [], []⟩, none, "urn:t", Header.xpath, Header.xmlSchema, none, none⟩ := by
    cases hs
    rfl
  obtain ⟨d, r, hd, -, hr, heq, -, d', hd', -, hsame, -⟩ := c.reload hload
  have hd'' : d' = d := hsame fun hn => by simp [hheader, ExportSettings.Reorders] at hn
  refine ⟨s, d, r, hload, hd, hr, ?_, ?_, hd'' ▸ hd'⟩
  · rw [heq]
  · rw [heq, hheader]
    rfl

/-- The text changes where the model names an exporter version only. -/
theorem reload_exporterVersion :
    let c : Config := ⟨default, ⟨some "only", none⟩⟩
    let source : Document := ⟨(((Node.bare "definitions").setText "id" "Defs").setText
      "targetNamespace" "urn:t").setText "exporterVersion" "9"⟩
    ∃ s text r, Scope.load source.toText = .ok s ∧ c.writeText s = .ok text ∧
      Scope.load text = .ok r ∧ c.writeText r ≠ .ok text := by
  intro c source
  have hfits {d : Document} (hd : d.root.children = []) : d.Fits := by
    show ∀ c ∈ d.root.children, c.Fits 62
    simp [hd]
  let h : Header :=
    ⟨⟨⟨"Defs"⟩, [], []⟩, none, "urn:t", Header.xpath, Header.xmlSchema, none, some "9"⟩
  let s : Scope := { Scope.fresh ⟨"Defs"⟩ "urn:t" with header := h }
  let r : Scope := { s with header := { h with exporter := some "only" } }
  obtain ⟨d, hd⟩ : ∃ d, c.write s = .ok d := ⟨_, rfl⟩
  obtain ⟨d', hd'⟩ : ∃ d', c.write r = .ok d' := ⟨_, rfl⟩
  have hnames : d.root.attributes.names =
      ["id", "targetNamespace", "exporterVersion", "exporter"] := by
    cases hd
    rfl
  have hnames' : d'.root.attributes.names =
      ["id", "targetNamespace", "exporter", "exporterVersion"] := by
    cases hd'
    rfl
  have hfitsd : d.Fits := hfits (by cases hd; rfl)
  have hfitsd' : d'.Fits := hfits (by cases hd'; rfl)
  refine ⟨s, d.toText, r, Scope.load_toText (hfits rfl) rfl, ?_, Scope.load_toText hfitsd ?_, ?_⟩
  · rw [writeText, hd]
    rfl
  · cases hd
    rfl
  · rw [writeText, hd']
    intro hsame
    have htext : d'.toText = d.toText := Except.ok.inj hsame
    have heq : some d' = some d := by
      rw [← Document.ofText?_toText hfitsd', htext, Document.ofText?_toText hfitsd]
    cases heq
    rw [hnames] at hnames'
    exact absurd hnames' (by decide)

end Config

end BpmnModel
