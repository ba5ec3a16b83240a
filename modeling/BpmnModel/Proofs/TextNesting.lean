import BpmnModel.Proofs.DocumentText

/-!
# Exactly the texts that nest too deep are refused

How deep a text nests is seen from its characters: brackets and braces outside quotes open and close
a level each.

* `Json.nestingOfText` — the deepest level of a text.
* `Json.nestingOfText_render` — for a printed value this is how deep its arrays and objects nest.
* `Node.fits_iff` — so there is room for a node exactly if its text does not nest too deep.
* `Document.ofText?_toText_eq` — the text of any document is read back, or is refused for its depth.
-/

namespace BpmnModel

namespace Json

/-! ## Levels of a text -/

/-- Whether a scan of a text stands in quotes, and there behind a backslash. -/
inductive Quoting where
  | outside
  | inside
  | escaped
deriving DecidableEq

/-- A scan of a text: the levels that are open, the most that were ever open, and the quotes. -/
structure Scan where
  level : Nat
  deepest : Nat
  quoting : Quoting
deriving DecidableEq

namespace Scan

/-- Nothing read. -/
def start : Scan := ⟨0, 0, .outside⟩

/-- Reads one character. -/
def step (s : Scan) (c : Char) : Scan :=
  match s.quoting with
  | .escaped => { s with quoting := .inside }
  | .inside =>
    if c = '\\' then { s with quoting := .escaped }
    else if c = '"' then { s with quoting := .outside }
    else s
  | .outside =>
    if c = '"' then { s with quoting := .inside }
    else if c = '[' ∨ c = '\x7b' then ⟨s.level + 1, max s.deepest (s.level + 1), .outside⟩
    else if c = ']' ∨ c = '\x7d' then { s with level := s.level - 1 }
    else s

end Scan

/-- How deep brackets and braces nest in a text, those in quotes apart. -/
def nestingOfText (text : String) : Nat :=
  (text.toList.foldl Scan.step .start).deepest

example : nestingOfText "[[], \"[[[\"]" = 2 := by decide

mutual

/-- How deep arrays and objects nest in a value. -/
def nesting : Json → Nat
  | array items => nestingOfItems items + 1
  | object members => nestingOfMembers members + 1
  | _ => 0

/-- How deep they nest in the items of an array. -/
def nestingOfItems : List Json → Nat
  | [] => 0
  | item :: items => max (nesting item) (nestingOfItems items)

/-- How deep they nest in the members of an object. -/
def nestingOfMembers : List (Option String × Json) → Nat
  | [] => 0
  | (_, value) :: members => max (nesting value) (nestingOfMembers members)

end

theorem nesting_array_le {items : List Json} {k : Nat} :
    (array items).nesting ≤ k + 1 ↔ ∀ j ∈ items, j.nesting ≤ k := by
  rw [nesting, Nat.succ_le_succ_iff]
  induction items with
  | nil => simp [nestingOfItems]
  | cons item items ih => rw [nestingOfItems, Nat.max_le, ih, List.forall_mem_cons]

theorem nesting_object_le {members : List (Option String × Json)} {k : Nat} :
    (object members).nesting ≤ k + 1 ↔ ∀ m ∈ members, m.2.nesting ≤ k := by
  rw [nesting, Nat.succ_le_succ_iff]
  induction members with
  | nil => simp [nestingOfMembers]
  | cons m members ih =>
    obtain ⟨key, value⟩ := m
    rw [nestingOfMembers, Nat.max_le, ih, List.forall_mem_cons]

/-! ## Printed values -/

namespace Scan

variable {level deepest : Nat}

/-- Outside quotes the character opens and closes nothing. -/
def Plain (c : Char) : Prop :=
  c ≠ '"' ∧ c ≠ '[' ∧ c ≠ '\x7b' ∧ c ≠ ']' ∧ c ≠ '\x7d'

instance (c : Char) : Decidable (Plain c) :=
  inferInstanceAs (Decidable (_ ∧ _))

theorem step_plain {c : Char} (h : Plain c) :
    step ⟨level, deepest, .outside⟩ c = ⟨level, deepest, .outside⟩ := by
  obtain ⟨h₁, h₂, h₃, h₄, h₅⟩ := h
  simp [step, h₁, h₂, h₃, h₄, h₅]

theorem foldl_plain {cs : List Char} (h : ∀ c ∈ cs, Plain c) :
    cs.foldl step ⟨level, deepest, .outside⟩ = ⟨level, deepest, .outside⟩ := by
  induction cs with
  | nil => rfl
  | cons c cs ih =>
    rw [List.forall_mem_cons] at h
    rw [List.foldl_cons, step_plain h.1, ih h.2]

theorem plain_of_blank {c : Char} (h : isBlank c = true) : Plain c := by
  simp only [isBlank, Bool.or_eq_true, decide_eq_true_eq] at h
  rcases h with ((rfl | rfl) | rfl) | rfl <;> decide

theorem plain_of_number {c : Char} (h : c.isDigit ∨ c = '-') : Plain c := by
  have hne {d : Char} (hd : ¬ (d.isDigit ∨ d = '-')) : c ≠ d := fun heq => hd (heq ▸ h)
  exact ⟨hne (by decide), hne (by decide), hne (by decide), hne (by decide), hne (by decide)⟩

theorem plain_digits (n : Int) : ∀ c ∈ digits n, Plain c := by
  have hdigits : ∀ c ∈ Nat.toDigits 10 n.natAbs, Plain c := fun c hc =>
    plain_of_number (.inl (Nat.isDigit_of_mem_toDigits (by decide) (by decide) hc))
  unfold digits
  split
  · exact List.forall_mem_cons.mpr ⟨plain_of_number (.inr rfl), hdigits⟩
  · exact hdigits

/-- The digits of an escape close no quotes. -/
theorem hexDigit_ne (n : Nat) (h : n < 16) : hexDigit n ≠ '\\' ∧ hexDigit n ≠ '"' := by
  revert n
  decide

/-- A character in quotes leaves the scan in quotes, whatever its spelling. -/
theorem foldl_escape (c : Char) :
    (escape c).foldl step ⟨level, deepest, .inside⟩ = ⟨level, deepest, .inside⟩ := by
  unfold escape
  split_ifs with h₁ h₂ h₃ h₄ h₅ h₆ h₇ h₈
  iterate 7 exact rfl
  · obtain ⟨h, h'⟩ := hexDigit_ne (c.toNat / 16) (by omega)
    obtain ⟨k, k'⟩ := hexDigit_ne (c.toNat % 16) (Nat.mod_lt _ (by decide))
    simp [step, h, h', k, k']
  · simp [step, h₁, h₂]

theorem foldl_quote? (text : Option String) :
    (quote? text).foldl step ⟨level, deepest, .outside⟩ = ⟨level, deepest, .outside⟩ := by
  cases text with
  | none => rfl
  | some s =>
    have hescapes (cs : List Char) : (cs.flatMap escape).foldl step ⟨level, deepest, .inside⟩ =
        ⟨level, deepest, .inside⟩ := by
      induction cs with
      | nil => rfl
      | cons c cs ih => rw [List.flatMap_cons, List.foldl_append, foldl_escape, ih]
    show (s.toList.flatMap escape ++ ['"']).foldl step ⟨level, deepest, .inside⟩ = _
    rw [List.foldl_append, hescapes]
    rfl

end Scan

open Scan (step foldl_plain foldl_quote? plain_of_blank)

variable {l : Layout}

theorem Layout.IsBlank.plain_colon (hl : l.IsBlank) : ∀ c ∈ l.colon, Scan.Plain c := by
  obtain ⟨bs, hcolon, hbs⟩ := hl.colon
  rw [hcolon]
  exact List.forall_mem_cons.mpr ⟨by decide, fun c hc => plain_of_blank (hbs c hc)⟩

theorem Layout.IsBlank.plain_lineBreak (hl : l.IsBlank) (depth : Nat) :
    ∀ c ∈ l.lineBreak depth, Scan.Plain c :=
  fun c hc => plain_of_blank (hl.lineBreak depth c hc)

/-- The value is scanned at any depth, and leaves the level as it was. -/
def IsScanned (l : Layout) (j : Json) : Prop :=
  ∀ depth level deepest, level ≤ deepest →
    (renderAt l depth j).foldl step ⟨level, deepest, .outside⟩ =
      ⟨level, max deepest (level + j.nesting), .outside⟩

theorem isScanned_of_plain {j : Json} (hnesting : j.nesting = 0)
    (h : ∀ depth, ∀ c ∈ renderAt l depth j, Scan.Plain c) : IsScanned l j := by
  intro depth level deepest hle
  rw [foldl_plain (h depth), hnesting, Nat.add_zero, Nat.max_eq_left hle]

/-- What follows the first item is scanned to the end of the list. -/
theorem foldl_renderItems (hl : l.IsBlank) {items : List Json} (h : ∀ j ∈ items, IsScanned l j)
    (depth level deepest : Nat) (hle : level ≤ deepest) :
    (renderItems l depth items).foldl step ⟨level, deepest, .outside⟩ =
      ⟨level, max deepest (level + nestingOfItems items), .outside⟩ := by
  induction items generalizing deepest with
  | nil => simp [renderItems, nestingOfItems, hle]
  | cons item items ih =>
    rw [List.forall_mem_cons] at h
    rw [renderItems, List.foldl_cons, List.foldl_append, List.foldl_append,
      Scan.step_plain (by decide), foldl_plain (hl.plain_lineBreak depth),
      h.1 depth level deepest hle, ih h.2 _ (by omega), nestingOfItems]
    simp only [Scan.mk.injEq, and_true, true_and]
    omega

theorem foldl_renderMembers (hl : l.IsBlank) {members : List (Option String × Json)}
    (h : ∀ m ∈ members, IsScanned l m.2) (depth level deepest : Nat) (hle : level ≤ deepest) :
    (renderMembers l depth members).foldl step ⟨level, deepest, .outside⟩ =
      ⟨level, max deepest (level + nestingOfMembers members), .outside⟩ := by
  induction members generalizing deepest with
  | nil => simp [renderMembers, nestingOfMembers, hle]
  | cons m members ih =>
    obtain ⟨key, value⟩ := m
    rw [List.forall_mem_cons] at h
    rw [renderMembers, List.foldl_cons, List.foldl_append, List.foldl_append, List.foldl_append,
      List.foldl_append, Scan.step_plain (by decide), foldl_plain (hl.plain_lineBreak depth),
      foldl_quote?, foldl_plain hl.plain_colon, h.1 depth level deepest hle, ih h.2 _ (by omega),
      nestingOfMembers]
    simp only [Scan.mk.injEq, and_true, true_and]
    omega

theorem isScanned_array (hl : l.IsBlank) {items : List Json} (h : ∀ j ∈ items, IsScanned l j) :
    IsScanned l (.array items) := by
  intro depth level deepest hle
  cases items with
  | nil => simp [renderAt, step, nesting, nestingOfItems]
  | cons item items =>
    rw [List.forall_mem_cons] at h
    rw [renderAt, List.foldl_cons, List.foldl_append, List.foldl_append, List.foldl_append,
      List.foldl_append]
    show step (List.foldl step (List.foldl step (List.foldl step (List.foldl step
      ⟨level + 1, max deepest (level + 1), .outside⟩ _) _) _) _) ']' = _
    rw [foldl_plain (hl.plain_lineBreak _), h.1 _ _ _ (by omega),
      foldl_renderItems hl h.2 _ _ _ (by omega), foldl_plain (hl.plain_lineBreak _)]
    simp only [step, nesting, nestingOfItems, Char.reduceEq, or_false, if_false, if_true,
      Scan.mk.injEq, and_true]
    omega

theorem isScanned_object (hl : l.IsBlank) {members : List (Option String × Json)}
    (h : ∀ m ∈ members, IsScanned l m.2) : IsScanned l (.object members) := by
  intro depth level deepest hle
  cases members with
  | nil => simp [renderAt, step, nesting, nestingOfMembers]
  | cons m members =>
    obtain ⟨key, value⟩ := m
    rw [List.forall_mem_cons] at h
    rw [renderAt, List.foldl_cons, List.foldl_append, List.foldl_append, List.foldl_append,
      List.foldl_append, List.foldl_append, List.foldl_append]
    show step (List.foldl step (List.foldl step (List.foldl step (List.foldl step (List.foldl step
      (List.foldl step ⟨level + 1, max deepest (level + 1), .outside⟩ _) _) _) _) _) _) '\x7d' = _
    rw [foldl_plain (hl.plain_lineBreak _), foldl_quote?, foldl_plain hl.plain_colon,
      h.1 _ _ _ (by omega), foldl_renderMembers hl h.2 _ _ _ (by omega),
      foldl_plain (hl.plain_lineBreak _)]
    simp only [step, nesting, nestingOfMembers, Char.reduceEq, or_true, or_false, if_false, if_true,
      Scan.mk.injEq, and_true]
    omega

/-- **A scan of a printed value meets the levels of the value.** -/
theorem isScanned (hl : l.IsBlank) (j : Json) : IsScanned l j := by
  induction j using value_induction with
  | null => exact isScanned_of_plain rfl fun _ => by simp [renderAt, Scan.Plain]
  | flag b =>
    cases b with
    | true => exact isScanned_of_plain rfl fun _ => by simp [renderAt, Scan.Plain]
    | false => exact isScanned_of_plain rfl fun _ => by simp [renderAt, Scan.Plain]
  | integer n => exact isScanned_of_plain rfl fun _ => Scan.plain_digits n
  | real => exact isScanned_of_plain rfl fun _ => by simp [renderAt, Scan.Plain]
  | text s =>
    intro depth level deepest hle
    rw [renderAt, foldl_quote?, nesting, Nat.add_zero, Nat.max_eq_left hle]
    all_goals simp
  | array items ih => exact isScanned_array hl ih
  | object members ih => exact isScanned_object hl ih

/-- **A printed text nests as deep as its value.** -/
theorem nestingOfText_render (hl : l.IsBlank) (j : Json) :
    nestingOfText (j.render l) = j.nesting := by
  rw [nestingOfText, render, String.toList_ofList, Scan.start, isScanned hl j 0 0 0 (Nat.le_refl 0)]
  simp

end Json

/-! ## Room for documents -/

/-- What is read as a list is read item by item. -/
theorem exists_read_of_mapM {α β : Type} {read : α → Option β} {xs : List α} {ys : List β}
    (h : xs.mapM read = some ys) : ∀ x ∈ xs, ∃ y, read x = some y := by
  induction xs generalizing ys with
  | nil => exact nofun
  | cons x xs ih =>
    simp only [List.mapM_cons, Option.bind_eq_bind, Option.bind_eq_some_iff] at h
    obtain ⟨y, hy, zs, hzs, -⟩ := h
    exact List.forall_mem_cons.mpr ⟨⟨y, hy⟩, ih hzs⟩

theorem Value.nesting_toJson_le (v : Value) : v.toJson.nesting ≤ 1 := by
  cases v with
  | list items =>
    exact Json.nesting_array_le.mpr (List.forall_mem_map.mpr fun s _ => Nat.le_refl 0)
  | _ => exact Nat.zero_le 1

theorem Attributes.nesting_toJson_le (as : Attributes) : as.toJson.nesting ≤ 2 :=
  Json.nesting_object_le.mpr (List.forall_mem_map.mpr fun e _ => e.2.nesting_toJson_le)

namespace Node

/-- A level of nodes takes two levels of the text, its attributes one or two. -/
theorem nesting_toJson_le {n : Node} {k : Nat} : n.toJson.nesting ≤ k + 1 ↔
    (n.attributes.entries ≠ [] → n.attributes.toJson.nesting ≤ k) ∧
      (n.children ≠ [] → Json.nesting (.array (n.children.map toJson)) ≤ k) := by
  obtain ⟨label, attributes, children⟩ := n
  rw [toJson, Json.nesting_object_le, allToJson_eq]
  simp only [List.isEmpty_iff, List.forall_mem_cons, List.forall_mem_append]
  have hlabel : Json.nesting (.text (some label)) ≤ k := Nat.zero_le k
  refine (and_iff_right hlabel).trans (and_congr ?_ ?_)
  · by_cases ha : attributes.entries = [] <;> simp [ha]
  · by_cases hc : children = [] <;> simp [hc]

/-- **There is room for a node exactly if its text does not nest too deep.** -/
theorem fits_iff {n : Node} {k : Nat} : n.Fits k ↔ n.toJson.nesting ≤ 2 * k + 1 := by
  induction k generalizing n with
  | zero =>
    rw [nesting_toJson_le, Fits]
    refine and_congr ⟨fun ha hne => absurd ha hne, fun ha => ?_⟩
      ⟨fun hc hne => absurd hc hne, fun hc => ?_⟩
    · by_contra hne
      exact absurd (ha hne) (Nat.not_succ_le_zero _)
    · by_contra hne
      exact absurd (hc hne) (Nat.not_succ_le_zero _)
  | succ k ih =>
    have hattributes : n.attributes.toJson.nesting ≤ 2 * k + 2 :=
      n.attributes.nesting_toJson_le.trans (by omega)
    have hchildren : Json.nesting (.array (n.children.map toJson)) ≤ 2 * k + 2 ↔
        ∀ c ∈ n.children, c.Fits k := by
      rw [Json.nesting_array_le, List.forall_mem_map]
      exact forall₂_congr fun c _ => ih.symm
    rw [show 2 * (k + 1) + 1 = 2 * k + 2 + 1 by omega, nesting_toJson_le, hchildren, Fits]
    refine ⟨fun h => ⟨fun _ => hattributes, fun _ => h⟩, fun h c hc => h.2 ?_ c hc⟩
    exact List.ne_nil_of_mem hc

/-- Nothing is read from the text of a node for which there is no room. -/
theorem fits_of_read {n m : Node} {k : Nat} (h : ofJson? (2 * k + 1) n.toJson = some m) :
    n.Fits k := by
  induction k generalizing n m with
  | zero =>
    rw [ofJson?_succ, parts?_toJson, Option.bind_some] at h
    obtain ⟨label, -, h⟩ := Option.bind_eq_some_iff.mp h
    obtain ⟨attributes, ha, h⟩ := Option.bind_eq_some_iff.mp h
    obtain ⟨children, hc, -⟩ := Option.bind_eq_some_iff.mp h
    constructor
    · by_contra hne
      simp [Parts.readAttributes, parts, hne, Attributes.ofJson?] at ha
    · by_contra hne
      simp [Parts.readChildren, parts, hne, allOfJson?] at hc
  | succ k ih =>
    have h : ofJson? (2 * k + 2 + 1) n.toJson = some m := h
    rw [ofJson?_succ, parts?_toJson, Option.bind_some] at h
    obtain ⟨label, -, h⟩ := Option.bind_eq_some_iff.mp h
    obtain ⟨attributes, -, h⟩ := Option.bind_eq_some_iff.mp h
    obtain ⟨children, hc, -⟩ := Option.bind_eq_some_iff.mp h
    intro c hmem
    have hne : n.children ≠ [] := List.ne_nil_of_mem hmem
    rw [Parts.readChildren, parts, if_neg hne] at hc
    replace hc : (n.children.map toJson).mapM (ofJson? (2 * k + 1)) = some children := hc
    obtain ⟨m, hm⟩ := exists_read_of_mapM hc c.toJson (List.mem_map_of_mem hmem)
    exact ih hm

end Node

namespace Document

/-- **The text of a document is read back, or is refused for its depth.**  What is read back is the
document itself, whatever texts, numbers and lists it holds: attributes and children stand in their
order, and every value has its shape.  A text that nests deeper than the limit gives no document at
all. -/
theorem ofText?_toText_eq (d : Document) :
    ofText? d.toText = if Json.nestingOfText d.toText ≤ nestingLimit then some d else none := by
  have hnesting : Json.nestingOfText d.toText = d.root.toJson.nesting :=
    Json.nestingOfText_render Json.Layout.isBlank_pretty d.root.toJson
  have hfits : d.Fits ↔ Json.nestingOfText d.toText ≤ nestingLimit := by
    rw [hnesting]
    exact Node.fits_iff
  split
  · exact ofText?_toText (hfits.mpr ‹_›)
  · cases h : ofText? d.toText with
    | none => rfl
    | some d' =>
      rw [ofText?, toText, Json.parse_render Json.Layout.isBlank_pretty, Option.bind_some] at h
      obtain ⟨n, hn, -⟩ := Option.map_eq_some_iff.mp h
      exact absurd (hfits.mp (Node.fits_of_read (k := 63) hn)) ‹_›

end Document

end BpmnModel
