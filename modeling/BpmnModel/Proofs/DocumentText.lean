import BpmnModel.Document.Text
import BpmnModel.Proofs.JsonText
import BpmnModel.Proofs.Nesting

/-!
# Documents as texts

* `Node.ofJson?_toJson` — a node for which there is room is read back from its written form.
* `Node.fits_of_ofJson?` — there is room for whatever is read.
* `Document.ofText?_toText` — so a document that fits is read back from its text.
-/

namespace BpmnModel

/-- Things that are read back one by one are read back as a list. -/
theorem mapM_map_eq_some {α β : Type} {write : α → β} {read : β → Option α} {xs : List α}
    (h : ∀ x ∈ xs, read (write x) = some x) : (xs.map write).mapM read = some xs := by
  induction xs with
  | nil => rfl
  | cons x xs ih =>
    rw [List.forall_mem_cons] at h
    rw [List.map_cons, List.mapM_cons, h.1, ih h.2]
    rfl

/-- What was read in a list was read from one of its items. -/
theorem exists_of_mapM_eq_some {α β : Type} {read : α → Option β} {xs : List α} {ys : List β}
    (h : xs.mapM read = some ys) {y : β} (hy : y ∈ ys) : ∃ x ∈ xs, read x = some y := by
  induction xs generalizing ys with
  | nil =>
    cases h
    cases hy
  | cons x xs ih =>
    simp only [List.mapM_cons, Option.bind_eq_bind, Option.bind_eq_some_iff, Option.pure_def,
      Option.some.injEq] at h
    obtain ⟨z, hz, zs, hzs, rfl⟩ := h
    rcases List.mem_cons.mp hy with rfl | hy
    · exact ⟨x, List.mem_cons_self, hz⟩
    · obtain ⟨w, hw, hread⟩ := ih hzs hy
      exact ⟨w, List.mem_cons_of_mem x hw, hread⟩

/-! ## Values and attributes -/

/-- There is room for a list of texts below anything. -/
theorem Value.ofJson?_toJson (v : Value) (depth : Nat) : ofJson? (depth + 1) v.toJson = some v := by
  cases v with
  | flag b => rfl
  | integer n =>
    have hle := n.le_toInt
    have hlt := n.toInt_lt
    rw [toJson, ofJson?, if_pos ⟨by omega, by omega⟩, Int64.ofInt_toInt]
  | text s => rfl
  | list items =>
    have hitems : (items.map fun s => Json.text (some s)).mapM textOfJson? = some items :=
      mapM_map_eq_some fun _ _ => rfl
    rw [toJson, ofJson?, if_neg (Nat.succ_ne_zero depth), hitems, Option.map_some]

namespace Attributes

theorem insertEntry_of_not_mem {name : String} {value : Value} {es : List (String × Value)}
    (h : name ∉ es.map Prod.fst) : insertEntry name value es = es ++ [(name, value)] := by
  induction es with
  | nil => rfl
  | cons e es ih =>
    rw [List.map_cons, List.mem_cons, not_or] at h
    rw [insertEntry, if_neg (Ne.symm h.1), ih h.2, List.cons_append]

/-- Distinct names stay in the order in which they are set. -/
theorem entries_foldl_insert (as : Attributes) {es : List (String × Value)}
    (h : ((as.entries ++ es).map Prod.fst).Nodup) :
    (es.foldl (fun as (name, value) => as.insert name value) as).entries = as.entries ++ es := by
  induction es generalizing as with
  | nil => simp
  | cons e es ih =>
    obtain ⟨name, value⟩ := e
    have hnew : name ∉ as.entries.map Prod.fst := by
      intro hmem
      rw [List.map_append, List.map_cons] at h
      exact (List.nodup_append.mp h).2.2 name hmem name List.mem_cons_self rfl
    have hentries : (as.insert name value).entries = as.entries ++ [(name, value)] :=
      insertEntry_of_not_mem hnew
    rw [List.foldl_cons, ih]
    · rw [hentries, List.append_assoc, List.singleton_append]
    · rw [hentries, List.append_assoc, List.singleton_append]
      exact h

theorem ofList_entries (as : Attributes) : ofList as.entries = as :=
  Attributes.ext (entries_foldl_insert empty as.nodup)

theorem ofJson?_toJson (as : Attributes) (depth : Nat) :
    ofJson? (depth + 2) as.toJson = some as := by
  have hentries : (as.entries.map fun (name, value) => (some name, value.toJson)).mapM
      (entryOfJson? (depth + 1)) = some as.entries := by
    apply mapM_map_eq_some
    intro e _
    rw [entryOfJson?, Value.ofJson?_toJson, Option.map_some]
  rw [toJson, ofJson?, hentries, Option.map_some, ofList_entries]

end Attributes

/-! ## Nodes -/

namespace Node

theorem allToJson_eq (ns : List Node) : allToJson ns = ns.map toJson := by
  induction ns with
  | nil => rfl
  | cons n ns ih => rw [allToJson, ih, List.map_cons]

/-- The parts of a written node. Those that are empty are not named. -/
def parts (n : Node) : Parts where
  label := some (.text (some n.label))
  attributes := if n.attributes.entries = [] then none else some n.attributes.toJson
  children := if n.children = [] then none else some (.array (n.children.map toJson))

theorem parts?_toJson (n : Node) : parts? n.toJson = some n.parts := by
  obtain ⟨label, attributes, children⟩ := n
  rw [toJson, parts?, parts, allToJson_eq]
  simp only [List.isEmpty_iff]
  by_cases ha : attributes.entries = []
  · by_cases hc : children = []
    · rw [if_pos ha, if_pos hc, if_pos ha, if_pos hc]
      rfl
    · rw [if_pos ha, if_neg hc, if_pos ha, if_neg hc]
      rfl
  · by_cases hc : children = []
    · rw [if_neg ha, if_pos hc, if_neg ha, if_pos hc]
      rfl
    · rw [if_neg ha, if_neg hc, if_neg ha, if_neg hc]
      rfl

/-- The attributes that the parts name. -/
def Parts.readAttributes (p : Parts) (depth : Nat) : Option Attributes :=
  match p.attributes with
  | none => some .empty
  | some json => Attributes.ofJson? depth json

/-- The children that the parts name. -/
def Parts.readChildren (p : Parts) (depth : Nat) : Option (List Node) :=
  match p.children with
  | none => some []
  | some json => allOfJson? depth json

theorem ofJson?_succ (depth : Nat) (json : Json) : ofJson? (depth + 1) json =
    (parts? json).bind fun p => (p.label.bind Value.textOfJson?).bind fun label =>
      (p.readAttributes depth).bind fun attributes => (p.readChildren depth).bind fun children =>
        some ⟨label, attributes, children⟩ := by
  rw [ofJson?]
  apply Option.bind_congr
  intro p _
  apply Option.bind_congr
  intro label _
  rw [Parts.readAttributes, Parts.readChildren]
  cases p.attributes with
  | none => cases p.children <;> rfl
  | some a => cases p.children <;> rfl

theorem Parts.readAttributes_zero {p : Parts} {as : Attributes} (h : p.readAttributes 0 = some as) :
    as = .empty := by
  unfold Parts.readAttributes at h
  split at h
  · exact (Option.some.inj h).symm
  · cases h

theorem Parts.readChildren_zero {p : Parts} {cs : List Node} (h : p.readChildren 0 = some cs) :
    cs = [] := by
  unfold Parts.readChildren at h
  split at h
  · exact (Option.some.inj h).symm
  · cases h

/-- Every child was read one level of nodes below. -/
theorem Parts.exists_of_readChildren {p : Parts} {depth : Nat} {cs : List Node}
    (h : p.readChildren (depth + 1) = some cs) {c : Node} (hc : c ∈ cs) :
    ∃ json, ofJson? depth json = some c := by
  unfold Parts.readChildren at h
  split at h
  · cases h
    cases hc
  · rename_i json _
    cases json with
    | array items =>
      rw [allOfJson?] at h
      obtain ⟨item, -, hitem⟩ := exists_of_mapM_eq_some h hc
      exact ⟨item, hitem⟩
    | _ => cases h

/-- **A node that fits is read back.**  Each level of nodes takes two levels of the text. -/
theorem ofJson?_toJson {n : Node} {k : Nat} (h : n.Fits k) :
    ofJson? (2 * k + 1) n.toJson = some n := by
  induction k generalizing n with
  | zero =>
    obtain ⟨label, attributes, children⟩ := n
    obtain ⟨ha, hc⟩ := h
    obtain rfl : Attributes.empty = attributes := Attributes.ext ha.symm
    obtain rfl : children = [] := hc
    rfl
  | succ k ih =>
    have hattributes : Parts.readAttributes (parts n) (2 * k + 2) = some n.attributes := by
      rw [Parts.readAttributes, parts]
      by_cases ha : n.attributes.entries = []
      · rw [if_pos ha]
        exact congrArg some (Attributes.ext ha.symm)
      · rw [if_neg ha]
        exact n.attributes.ofJson?_toJson (2 * k)
    have hchildren : Parts.readChildren (parts n) (2 * k + 2) = some n.children := by
      rw [Parts.readChildren, parts]
      by_cases hc : n.children = []
      · rw [if_pos hc, hc]
      · rw [if_neg hc]
        show allOfJson? (2 * k + 1 + 1) (.array (n.children.map toJson)) = _
        rw [allOfJson?]
        exact mapM_map_eq_some fun c hc => ih (h.child hc)
    show ofJson? (2 * k + 2 + 1) n.toJson = some n
    rw [ofJson?_succ, parts?_toJson, Option.bind_some, hattributes, hchildren]
    cases n
    rfl

/-- **Whatever is read fits.** -/
theorem fits_of_ofJson? {j : Json} {k : Nat} {n : Node} (h : ofJson? (2 * k + 1) j = some n) :
    n.Fits k := by
  induction k generalizing j n with
  | zero =>
    rw [ofJson?_succ] at h
    obtain ⟨p, -, h⟩ := Option.bind_eq_some_iff.mp h
    obtain ⟨label, -, h⟩ := Option.bind_eq_some_iff.mp h
    obtain ⟨attributes, ha, h⟩ := Option.bind_eq_some_iff.mp h
    obtain ⟨children, hc, heq⟩ := Option.bind_eq_some_iff.mp h
    cases heq
    rw [Parts.readAttributes_zero ha, Parts.readChildren_zero hc]
    exact ⟨rfl, rfl⟩
  | succ k ih =>
    have h : ofJson? (2 * k + 2 + 1) j = some n := h
    rw [ofJson?_succ] at h
    obtain ⟨p, -, h⟩ := Option.bind_eq_some_iff.mp h
    obtain ⟨label, -, h⟩ := Option.bind_eq_some_iff.mp h
    obtain ⟨attributes, -, h⟩ := Option.bind_eq_some_iff.mp h
    obtain ⟨children, hc, heq⟩ := Option.bind_eq_some_iff.mp h
    cases heq
    intro c hmem
    obtain ⟨json, hjson⟩ := Parts.exists_of_readChildren hc hmem
    exact ih hjson

end Node

/-! ## Texts -/

namespace Document

/-- A document for whose text there is room. -/
def Fits (d : Document) : Prop := d.root.Fits 63

theorem fits_of_ofText? {text : String} {d : Document} (h : ofText? text = some d) : d.Fits := by
  obtain ⟨n, hn, rfl⟩ := Option.map_eq_some_iff.mp h
  obtain ⟨json, -, hjson⟩ := Option.bind_eq_some_iff.mp hn
  exact Node.fits_of_ofJson? (k := 63) hjson

theorem ofText?_render {d : Document} (h : d.Fits) {l : Json.Layout} (hl : l.IsBlank) :
    ofText? (d.root.toJson.render l) = some d := by
  rw [ofText?, Json.parse_render hl, Option.bind_some]
  show (Node.ofJson? (2 * 63 + 1) d.root.toJson).map Document.mk = some d
  rw [Node.ofJson?_toJson h, Option.map_some]

/-- **A document that fits is read back from its text**, indented or not. -/
theorem ofText?_toText {d : Document} (h : d.Fits) : ofText? d.toText = some d :=
  ofText?_render h Json.Layout.isBlank_pretty

theorem ofText?_toCompactText {d : Document} (h : d.Fits) :
    ofText? d.root.toCompactText = some d :=
  ofText?_render h Json.Layout.isBlank_compact

end Document

end BpmnModel
