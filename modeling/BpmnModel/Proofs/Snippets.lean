import BpmnModel.CommandLine.Reportable
import BpmnModel.Scope.Edit
import BpmnModel.Validation.Validate
import Mathlib.Data.List.TakeWhile

/-!
# What a snippet shows

* `Snippet.linesOf`, `Span.CoversLine` — the lines of a text, and spans that cover one of them.
* `Snippet.Shows.add` — a label that comes behind a text gets a line of its own, and the spans of the
  labels before it stay where they are.
* `Reportable.OneALine` — labels are offered one a line, each with a span on its line.
* `Reportable.shown_one_a_line` — this holds from the first label on that has a name to show. Labels
  without one that stand before it get no line.
-/

namespace BpmnModel

namespace Snippet

/-! ## Lines and spans -/

/-- The lines of a text. -/
def linesOf (text : String) : List String :=
  (text.toList.splitOn '\n').map String.ofList

/-- A text on one line. -/
def IsLine (text : String) : Prop := '\n' ∉ text.toList

theorem linesOf_of_isLine {text : String} (h : IsLine text) : linesOf text = [text] := by
  have hsplit : text.toList.splitOn '\n' = [text.toList] := by
    have hline : ∀ l ∈ [text.toList], '\n' ∉ l := List.forall_mem_singleton.mpr h
    simpa using List.splitOn_intercalate '\n' hline (List.cons_ne_nil _ _)
  rw [linesOf, hsplit, List.map_singleton, String.ofList_toList]

theorem linesOf_append (text below : String) :
    linesOf (text ++ "\n" ++ below) = linesOf text ++ linesOf below := by
  have hlist : (text ++ "\n" ++ below).toList = text.toList ++ '\n' :: below.toList := by simp
  rw [linesOf, hlist, List.splitOn_append_cons_self, List.map_append]
  rfl

/-- A text has one line more than it has line breaks. -/
theorem length_linesOf (text : String) :
    (linesOf text).length = text.toList.count '\n' + 1 := by
  rw [linesOf, List.length_map]
  induction text.toList with
  | nil => rfl
  | cons c cs ih =>
    rw [List.splitOn_eq_splitOnP] at ih ⊢
    rw [List.splitOnP_cons_eq_if_modifyHead, List.count_cons]
    split
    · rw [List.length_cons, ih]
    · rw [List.length_modifyHead, ih]

end Snippet

/-- The span covers the line that has this many lines above it, from its first byte to its last, and
this is what stands there. -/
def Span.CoversLine (x : Span) (text line : String) (above : Nat) : Prop :=
  ∃ before after : String, text = before ++ line ++ after ∧
    x.offset = before.utf8ByteSize ∧ x.length = line.utf8ByteSize ∧
    Snippet.IsLine line ∧ before.toList.count '\n' = above ∧
    (before = "" ∨ ∃ b, before = b ++ "\n") ∧ (after = "" ∨ ∃ a, after = "\n" ++ a)

/-- What is appended on a new line does not move the lines above. -/
theorem Span.CoversLine.append {x : Span} {text line : String} {above : Nat}
    (h : x.CoversLine text line above) (below : String) :
    x.CoversLine (text ++ "\n" ++ below) line above := by
  obtain ⟨before, after, rfl, hoffset, hlength, hline, habove, hbefore, hafter⟩ := h
  refine ⟨before, after ++ "\n" ++ below, by simp only [String.append_assoc], hoffset, hlength, hline,
    habove, hbefore, .inr ?_⟩
  rcases hafter with rfl | ⟨a, rfl⟩
  · exact ⟨below, by simp⟩
  · exact ⟨a ++ "\n" ++ below, by simp only [String.append_assoc]⟩

namespace Snippet

/-! ## One label after the other -/

/-- The snippet has a line for each label, and the span of the label covers it. -/
structure Shows (s : Snippet) (labels : List Label) : Prop where
  lines : linesOf s.text = labels.map (·.element.text)
  spans : s.spans.length = labels.length
  covers : ∀ (i : Nat) (l : Label) (x : Span), labels[i]? = some l → s.spans[i]? = some x →
    x.message = l.message ∧ x.isPrimary = l.isPrimary ∧ x.CoversLine s.text l.element.text i

variable {s : Snippet} {labels : List Label} {l : Label}

theorem add_of_empty (spans : List Span) (l : Label) : add ⟨"", spans⟩ l =
    ⟨l.element.text, spans ++ [⟨l.message, 0, l.element.text.utf8ByteSize, l.isPrimary⟩]⟩ := by
  simp [add]

theorem add_of_text (h : s.text ≠ "") (l : Label) : s.add l =
    ⟨s.text ++ "\n" ++ l.element.text, s.spans ++ [⟨l.message, (s.text ++ "\n").utf8ByteSize,
      l.element.text.utf8ByteSize, l.isPrimary⟩]⟩ := by
  simp [add, String.isEmpty_iff, h]

theorem getElem?_concat {α : Type} {xs : List α} {x y : α} {i : Nat}
    (h : (xs ++ [x])[i]? = some y) : xs[i]? = some y ∨ i = xs.length ∧ y = x := by
  rw [List.getElem?_append] at h
  split at h
  · exact .inl h
  · rename_i hi
    obtain ⟨hlast, rfl⟩ := List.getElem?_eq_some_iff.mp h
    rw [List.length_singleton] at hlast
    exact .inr ⟨by omega, by simp⟩

/-- The first label gets the first line. -/
theorem shows_singleton (hl : IsLine l.element.text) : (add ⟨"", []⟩ l).Shows [l] := by
  rw [add_of_empty]
  refine ⟨linesOf_of_isLine hl, rfl, fun i k x hk hx => ?_⟩
  obtain ⟨rfl, rfl⟩ : 0 = i ∧ l = k := by
    rw [List.getElem?_singleton] at hk
    split at hk
    · exact ⟨(‹i = 0›).symm, Option.some.inj hk⟩
    · cases hk
  cases hx
  exact ⟨rfl, rfl, "", "", by simp, rfl, rfl, hl, rfl, .inl rfl, .inl rfl⟩

/-- **A label that comes behind a text gets a line of its own.** -/
theorem Shows.add (h : s.Shows labels) (htext : s.text ≠ "") (hl : IsLine l.element.text) :
    (s.add l).Shows (labels ++ [l]) := by
  rw [add_of_text htext]
  refine ⟨?_, by simp [h.spans], fun i k x hk hx => ?_⟩
  · rw [linesOf_append, h.lines, linesOf_of_isLine hl, List.map_append, List.map_singleton]
  · rcases getElem?_concat hk with hk | ⟨hi, rfl⟩
    · -- a label before it: its line is above
      rcases getElem?_concat hx with hx | ⟨hi, -⟩
      · obtain ⟨hmessage, hprimary, hcovers⟩ := h.covers i k x hk hx
        exact ⟨hmessage, hprimary, hcovers.append _⟩
      · have hbound : i < labels.length := (List.getElem?_eq_some_iff.mp hk).1
        rw [hi, h.spans] at hbound
        exact absurd hbound (Nat.lt_irrefl _)
    · rcases getElem?_concat hx with hx | ⟨-, rfl⟩
      · have hbound : i < s.spans.length := (List.getElem?_eq_some_iff.mp hx).1
        rw [hi, h.spans] at hbound
        exact absurd hbound (Nat.lt_irrefl _)
      · have hbreaks : s.text.toList.count '\n' + 1 = labels.length := by
          rw [← length_linesOf, h.lines, List.length_map]
        refine ⟨rfl, rfl, s.text ++ "\n", "", by simp, rfl, rfl, hl, ?_, .inr ⟨s.text, rfl⟩, .inl rfl⟩
        rw [hi, ← hbreaks]
        simp

theorem Shows.foldl (h : s.Shows labels) (htext : s.text ≠ "") (more : List Label)
    (hmore : ∀ l ∈ more, IsLine l.element.text) : (more.foldl Snippet.add s).Shows (labels ++ more) ∧
      (more.foldl Snippet.add s).text ≠ "" := by
  induction more generalizing s labels with
  | nil => exact ⟨by simpa using h, htext⟩
  | cons l more ih =>
    obtain ⟨hl, hmore⟩ := List.forall_mem_cons.mp hmore
    have hne : (s.add l).text ≠ "" := by
      rw [add_of_text htext]
      simp [String.append_eq_empty_iff]
    obtain ⟨hshows, hlast⟩ := ih (h.add htext hl) hne hmore
    exact ⟨by simpa using hshows, hlast⟩

/-- **Labels are shown one a line if the first one has a name to show.** -/
theorem shows_ofLabels (hl : l.element.text ≠ "")
    (h : ∀ k ∈ l :: labels, IsLine k.element.text) :
    (ofLabels (l :: labels)).Shows (l :: labels) ∧ (ofLabels (l :: labels)).text ≠ "" := by
  obtain ⟨hline, hlabels⟩ := List.forall_mem_cons.mp h
  refine (shows_singleton hline).foldl ?_ labels hlabels
  rw [add_of_empty]
  exact hl

/-! ## Labels without a name -/

/-- There is nothing to show of the element of the label. -/
def isNameless (l : Label) : Bool := l.element.text.isEmpty

/-- The span of a label that gets no line. -/
def blank (l : Label) : Span := ⟨l.message, 0, 0, l.isPrimary⟩

theorem foldl_add_spans (spans : List Span) (text : String) (before : List Span)
    (labels : List Label) : labels.foldl add ⟨text, before ++ spans⟩ =
      { labels.foldl add ⟨text, spans⟩ with
        spans := before ++ (labels.foldl add ⟨text, spans⟩).spans } := by
  induction labels generalizing text spans with
  | nil => rfl
  | cons l labels ih =>
    have hadd : add ⟨text, before ++ spans⟩ l =
        ⟨(add ⟨text, spans⟩ l).text, before ++ (add ⟨text, spans⟩ l).spans⟩ := by
      simp [add]
    rw [List.foldl_cons, hadd, ih, List.foldl_cons]

theorem foldl_add_nameless (spans : List Span) (h : ∀ l ∈ labels, isNameless l = true) :
    labels.foldl add ⟨"", spans⟩ = ⟨"", spans ++ labels.map blank⟩ := by
  induction labels generalizing spans with
  | nil => simp
  | cons l labels ih =>
    obtain ⟨hl, hlabels⟩ := List.forall_mem_cons.mp h
    have hempty : l.element.text = "" := String.isEmpty_iff.mp hl
    rw [List.foldl_cons, add_of_empty, hempty, ih _ hlabels, List.append_assoc, List.map_cons, blank]
    rfl

/-- **Labels without a name that stand first leave no trace in the text**: they get empty spans at
its start. -/
theorem ofLabels_eq (labels : List Label) : ofLabels labels =
    { ofLabels (labels.dropWhile isNameless) with
      spans := (labels.takeWhile isNameless).map blank ++
        (ofLabels (labels.dropWhile isNameless)).spans } := by
  have hfirst : ∀ l ∈ labels.takeWhile isNameless, isNameless l = true :=
    fun l hl => List.mem_takeWhile_imp hl
  have hsplit : ofLabels labels = (labels.dropWhile isNameless).foldl add
      ((labels.takeWhile isNameless).foldl add ⟨"", []⟩) := by
    rw [← List.foldl_append, List.takeWhile_append_dropWhile, ofLabels]
  rw [hsplit, foldl_add_nameless [] hfirst, List.nil_append,
    ← List.append_nil ((labels.takeWhile isNameless).map blank), foldl_add_spans, List.append_nil]
  rfl

end Snippet

namespace Reportable

open Snippet (linesOf IsLine isNameless blank)

/-! ## What is offered -/

/-- Where there are labels a snippet is offered, in which each label has a line with the identifier
of its element, and a span that covers this line. -/
structure OneALine (r : Reportable) (labels : List Label) : Prop where
  offered : labels ≠ [] → r.snippet ≠ none
  lines : ∀ text ∈ r.snippet, linesOf text = labels.map (·.element.text)
  spans : r.spans.length = labels.length
  covers : ∀ text ∈ r.snippet, ∀ (i : Nat) (l : Label) (x : Span),
    labels[i]? = some l → r.spans[i]? = some x →
      x.message = l.message ∧ x.isPrimary = l.isPrimary ∧ x.CoversLine text l.element.text i

variable {d : Diagnostic}

theorem oneALine_of_shows (h : (Snippet.ofLabels d.labels).Shows d.labels)
    (htext : (Snippet.ofLabels d.labels).text ≠ "") : (ofDiagnostic d).OneALine d.labels := by
  have hsnippet : (ofDiagnostic d).snippet = some (Snippet.ofLabels d.labels).text := by
    simp [ofDiagnostic, String.isEmpty_iff, htext]
  have htexts : ∀ text ∈ (ofDiagnostic d).snippet, text = (Snippet.ofLabels d.labels).text := by
    intro text hmem
    rw [hsnippet] at hmem
    exact (Option.mem_some.mp hmem).symm
  refine ⟨fun _ => by simp [hsnippet], fun text hmem => ?_, h.spans, fun text hmem => ?_⟩
  · rw [htexts text hmem, h.lines]
  · rw [htexts text hmem]
    exact h.covers

theorem oneALine_of_no_label (h : d.labels = []) : (ofDiagnostic d).OneALine d.labels := by
  have hsnippet : (ofDiagnostic d).snippet = none := by simp [ofDiagnostic, h, Snippet.ofLabels]
  refine ⟨fun hne => absurd h hne, by simp [hsnippet], ?_, by simp [hsnippet]⟩
  simp [ofDiagnostic, h, Snippet.ofLabels]

/-- **Labels are shown one a line from the first that has a name to show.** What is shown of a
diagnostic is what is shown without the nameless labels that come first, and these get empty spans
at the start. So each label has a line of its own, on which its span lies, exactly if no such label
comes first. -/
theorem shown_one_a_line (d : Diagnostic) (h : ∀ l ∈ d.labels, IsLine l.element.text) :
    let nameless := d.labels.takeWhile isNameless
    let rest := d.labels.dropWhile isNameless
    let shown := ofDiagnostic { d with labels := rest }
    shown.OneALine rest ∧
      ofDiagnostic d = { shown with spans := nameless.map blank ++ shown.spans } ∧
      ((ofDiagnostic d).OneALine d.labels ↔ nameless = []) := by
  intro nameless rest shown
  have hsplit : nameless ++ rest = d.labels := List.takeWhile_append_dropWhile
  have hrest : shown.OneALine rest := by
    cases hcases : rest with
    | nil =>
      rw [← hcases]
      exact oneALine_of_no_label (d := { d with labels := rest }) hcases
    | cons l labels =>
      have hne : l.element.text ≠ "" := by
        have hnot : isNameless l = false := by
          have := List.head?_dropWhile_not isNameless d.labels
          simpa [rest, hcases] using this
        simpa [isNameless, String.isEmpty_iff] using hnot
      have hlines : ∀ k ∈ l :: labels, IsLine k.element.text := fun k hk =>
        h k (hsplit ▸ List.mem_append_right _ (hcases ▸ hk))
      obtain ⟨hshows, htext⟩ := Snippet.shows_ofLabels hne hlines
      rw [← hcases] at hshows htext ⊢
      exact oneALine_of_shows (d := { d with labels := rest }) hshows htext
  have heq : ofDiagnostic d = { shown with spans := nameless.map blank ++ shown.spans } := by
    rw [ofDiagnostic, Snippet.ofLabels_eq]
    rfl
  refine ⟨hrest, heq, fun hall => ?_, fun hnone => ?_⟩
  · -- a nameless label in front has no line
    by_contra hne
    obtain ⟨text, htext⟩ := Option.ne_none_iff_exists'.mp
      (hall.offered fun hnil => hne (List.append_eq_nil_iff.mp (hsplit.trans hnil)).1)
    have hall := hall.lines text htext
    have hlines := hrest.lines text (by rw [heq] at htext; exact htext)
    have hlength := congrArg List.length (hlines.symm.trans hall)
    rw [← hsplit, List.length_map, List.length_map, List.length_append] at hlength
    exact hne (List.eq_nil_of_length_eq_zero (by omega))
  · have hlabels : rest = d.labels := by rw [← hsplit, hnone, List.nil_append]
    have hshown : shown = ofDiagnostic d := by
      show ofDiagnostic { d with labels := rest } = _
      rw [hlabels]
    rwa [← hshown, ← hlabels]

/-- Three labels, one of them without a name, and two of them on the same element: there are three
lines, and lengths count bytes. -/
theorem shown_one_a_line_accented :
    let d : Diagnostic := ⟨.error, none, .gatewayDegree, ⟨"é"⟩, .structural ⟨"é"⟩ "",
      [⟨⟨"é"⟩, "first", true⟩, ⟨⟨""⟩, "second", false⟩, ⟨⟨"é"⟩, "third", false⟩], none⟩
    (∀ l ∈ d.labels, IsLine l.element.text) ∧ (ofDiagnostic d).OneALine d.labels ∧
      (ofDiagnostic d).spans.map (fun x => (x.offset, x.length)) = [(0, 2), (3, 0), (4, 2)] := by
  intro d
  have hlines : ∀ l ∈ d.labels, IsLine l.element.text := by
    simp only [d, IsLine]
    decide +kernel
  exact ⟨hlines, (shown_one_a_line d hlines).2.2.mpr (by decide +kernel), by decide +kernel⟩

/-- A scope in which two flows leave a converging gateway whose identifier is empty. -/
def unnamed : Scope :=
  (Change.addFlowElement ⟨"p"⟩
      (.sequenceFlow ⟨⟨.bare ⟨"g"⟩, none, []⟩, ⟨⟨""⟩⟩, ⟨⟨"a"⟩⟩, none, none⟩)).after <|
    (Change.addFlowElement ⟨"p"⟩
      (.sequenceFlow ⟨⟨.bare ⟨"f"⟩, none, []⟩, ⟨⟨""⟩⟩, ⟨⟨"a"⟩⟩, none, none⟩)).after <|
    (Change.addFlowElement ⟨"p"⟩ (.task (.bare ⟨"a"⟩) .plain)).after <|
    (Change.addFlowElement ⟨"p"⟩
      (.gateway ⟨⟨.bare ⟨""⟩, none, []⟩, .none, .exclusive, .converging, none⟩)).after <|
    (Change.addRoot (.process (.bare ⟨"p"⟩))).after (Scope.fresh ⟨"Defs"⟩ "urn:t")

/-- **A label on an element with an empty identifier shares the line of the next one**: the only
problem of this scope has three labels, and its snippet has two lines. -/
theorem labels_share_line_unnamed :
    Reachable unnamed ∧ ∃ d ∈ (unnamed.validate default).diagnostics,
      (∀ l ∈ d.labels, IsLine l.element.text) ∧ ¬(ofDiagnostic d).OneALine d.labels := by
  have hreachable : Reachable unnamed :=
    .after _ (.sequenceFlow _) nofun <| .after _ (.sequenceFlow _) nofun <|
      .after _ (.task _ _) nofun <| .after _ (.gateway _) nofun <|
      .after _ ⟨[], [], nofun, rfl⟩ nofun (.fresh _ _)
  have hreport : (unnamed.validate default).diagnostics.map (fun d =>
      (d.labels.map (·.element.text), (ofDiagnostic d).snippet)) =
      [(["", "f", "g"], some "f\ng")] := by decide +kernel
  obtain ⟨d, hd⟩ := List.exists_mem_of_ne_nil (unnamed.validate default).diagnostics
    (by rintro hnil; simp [hnil] at hreport)
  have hshown := List.mem_map_of_mem (f := fun d : Diagnostic =>
    (d.labels.map (·.element.text), (ofDiagnostic d).snippet)) hd
  rw [hreport, List.mem_singleton] at hshown
  obtain ⟨hnames, hsnippet⟩ := Prod.mk.inj hshown
  refine ⟨hreachable, d, hd, fun l hl => ?_, fun hall => ?_⟩
  · have hname : l.element.text ∈ ["", "f", "g"] := hnames ▸ List.mem_map_of_mem hl
    have hlines : ∀ name ∈ ["", "f", "g"], '\n' ∉ name.toList := by decide +kernel
    exact hlines _ hname
  · have hlines := congrArg List.length (hall.lines _ hsnippet)
    rw [Snippet.length_linesOf, hnames] at hlines
    exact absurd hlines (by decide +kernel)

end Reportable

end BpmnModel
