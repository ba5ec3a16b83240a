import BpmnModel.Proofs.Normalisation
import BpmnModel.Proofs.Reloading
import BpmnModel.Proofs.Running

/-!
# Runs on what runs have written

A run writes only what it has checked, and what it writes is in normal form already.

* `Config.exists_normalised` — what was loaded is exported, and the text is loaded to a model that
  gets the same report and is exported to the same text, but for the place of the exporter.
* `FileTree.Passes` — a run passes, and at most the writing can still fail.
* `FileTree.passes_again` — a run on what a run has written passes with the same report.
* `FileTree.run_normalises` — what a run writes, and what a run on what was written does.
-/

namespace BpmnModel

/-! ## The same verdict -/

namespace Scope

variable {s t : Scope}

/-- Scopes that own the same and have no bound imports answer alike. -/
theorem answersLike_of_eq (hs : s.Agrees) (ht : t.Agrees)
    (hunbound : ∀ i ∈ s.imports, i.scope? = none) (hid : t.id = s.id) (hroots : t.roots = s.roots)
    (hrelationships : t.relationships = s.relationships) (himports : t.imports = s.imports) :
    s.AnswersLike t := by
  have hplaced : t.placed = s.placed := by
    rw [placed, placed, topLevel, topLevel, hroots, hrelationships]
  have hmatches : Matches Eq s t := ⟨hid.symm, hplaced ▸ .refl fun _ _ => ⟨rfl, rfl⟩⟩
  have hget (id : Id) : s.get? id = t.get? id := by
    have hrel := hmatches.rel_get? hs ht id
    generalize s.get? id = x at hrel
    generalize t.get? id = y at hrel
    cases hrel with
    | none => rfl
    | some hxy => rw [hxy]
  refine ⟨fun id => ?_, fun id => ?_, hmatches.slot?_eq hs ht⟩
  · rw [lookup_of_unbound hunbound, lookup_of_unbound (himports ▸ hunbound), hget]
  · rw [sequenceFlow?, sequenceFlow?, hget]

end Scope

/-! ## The same text -/

namespace Config

/-- The second text is the first, except where the configured exporter had to be written behind the
version that the model names. There the two attributes change places. -/
structure Renormalises (c : Config) (s : Scope) (out out' : String) : Prop where
  same : ¬ c.exporting.Reorders s.header → out' = out
  swapped : c.exporting.Reorders s.header → out' ≠ out ∧ ∃ d d' : Document,
    out = d.toText ∧ out' = d'.toText ∧ d.Swapped "exporter" "exporterVersion" d'

/-- **What was loaded has a normal form**, which is loaded again with the same verdict. -/
theorem exists_normalised (c : Config) {text : String} {s : Scope} (h : Scope.load text = .ok s) :
    ∃ out t out', c.writeText s = .ok out ∧ Scope.load out = .ok t ∧ c.validate t = c.validate s ∧
      c.writeText t = .ok out' ∧ c.Renormalises s out out' := by
  obtain ⟨d, registry, d', hd, hfits, hload, hd', hsame, hswapped⟩ := c.exists_reload h
  obtain ⟨source, -, hread⟩ := Scope.exists_of_load h
  obtain ⟨source', -, hread'⟩ := Scope.exists_of_load hload
  have hanswers := Scope.answersLike_of_eq hread.reachable.agrees hread'.reachable.agrees
    hread.unbound rfl rfl rfl rfl
  refine ⟨_, _, _, writeText_of_write hd, hload, hanswers.validate_eq rfl rfl, writeText_of_write hd',
    fun hn => by rw [hsame hn], fun hr => ?_⟩
  exact ⟨(hswapped hr).toText_ne (by decide) hfits, d, d', rfl, rfl, hswapped hr⟩

theorem check_eq_ok {c : Config} {s : Scope} {report : Report} :
    c.check s = .ok report ↔ report = c.validate s ∧ report.hasErrors = false := by
  rw [check]
  cases h : (c.validate s).hasErrors with
  | true =>
    simp only [if_true, reduceCtorEq, false_iff, not_and]
    rintro rfl
    simp [h]
  | false =>
    simp only [Bool.false_eq_true, if_false, Except.ok.injEq]
    constructor
    · rintro rfl
      exact ⟨rfl, h⟩
    · exact fun hr => hr.1.symm

end Config

/-! ## Runs -/

namespace FileTree

variable {t : FileTree}

/-- A run passes with this report, and what is to be written is this text. The only thing that can
still fail is to write it. -/
inductive Passes (t : FileTree) (a : Args) (report : Report) (out : String) : Prop where
  | checked (houtput : a.output = none) (hrun : t.exec (run a) = (.ok report, t))
  | written {path : String} {t' : FileTree} (houtput : a.output = some path)
    (hrun : t.exec (run a) = (.ok report, t')) (hwrite : t.write path out = .ok t')
    (hread : t'.read path = .ok out)
  | refused {path : String} {fault : FileFault} (houtput : a.output = some path)
    (hwrite : t.write path out = .error fault)
    (hrun : t.exec (run a) = (.error (.file fault), t))

theorem Passes.written_of_write {a : Args} {report : Report} {path out : String} {t' : FileTree}
    (h : t.Passes a report out) (houtput : a.output = some path)
    (hwrite : t.write path out = .ok t') :
    t.exec (run a) = (.ok report, t') ∧ t'.read path = .ok out := by
  cases h with
  | checked hnone => cases hnone.symm.trans houtput
  | written hsome hrun hwrite' hread =>
    cases hsome.symm.trans houtput
    cases hwrite.symm.trans hwrite'
    exact ⟨hrun, hread⟩
  | refused hsome hwrite' =>
    cases hsome.symm.trans houtput
    cases hwrite.symm.trans hwrite'

theorem Passes.refused_of_write {a : Args} {report : Report} {path out : String} {fault : FileFault}
    (h : t.Passes a report out) (houtput : a.output = some path)
    (hwrite : t.write path out = .error fault) : t.exec (run a) = (.error (.file fault), t) := by
  cases h with
  | checked hnone => cases hnone.symm.trans houtput
  | written hsome hrun hwrite' =>
    cases hsome.symm.trans houtput
    cases hwrite.symm.trans hwrite'
  | refused hsome hwrite' hrun =>
    cases hsome.symm.trans houtput
    cases hwrite.symm.trans hwrite'
    exact hrun

/-- A model that was loaded and has no errors passes. -/
theorem passes_of_load {a : Args} {c : Config} {text out : String} {s : Scope}
    (hc : (t.exec (findConfig a.config)).1 = .ok c) (hread : t.read a.input = .ok text)
    (hload : Scope.load text = .ok s) (hclean : (c.validate s).hasErrors = false)
    (hout : c.writeText s = .ok out) : t.Passes a (c.validate s) out := by
  have hfound : t.exec (findConfig a.config) = (.ok c, t) :=
    Prod.ext hc (t.exec_findConfig_snd a.config)
  have hrun := exec_run hfound
  simp only [hread, hload, Config.check_eq_ok.mpr ⟨rfl, hclean⟩] at hrun
  cases houtput : a.output with
  | none =>
    rw [houtput] at hrun
    exact .checked houtput hrun
  | some path =>
    simp only [houtput, hout] at hrun
    cases hwrite : t.write path out with
    | error fault =>
      rw [hwrite] at hrun
      exact .refused houtput hwrite hrun
    | ok t' =>
      rw [hwrite] at hrun
      obtain ⟨names, hspot, hwritten⟩ := written_of_write hwrite
      exact .written houtput hrun hwrite (hwritten.read_self hspot)

/-- **A run on what a run has written.** It finds the same configuration, if this is not what was
written, and passes with the same report. -/
theorem passes_again {a : Args} {c : Config} {path text out : String} {s : Scope} {t' : FileTree}
    {names : List String} (hc : (t.exec (findConfig a.config)).1 = .ok c)
    (hload : Scope.load text = .ok s) (hclean : (c.validate s).hasErrors = false)
    (hout : c.writeText s = .ok out) (hspot : (t.locate path).spot? = some names)
    (hwritten : t.Written names out t')
    (hconfig : ∀ p ∈ t.consulted a.config, (t.locate p).spot? ≠ some names) :
    ∃ out', c.Renormalises s out out' ∧ ∀ again level,
      t'.Passes ⟨path, again, a.config, level⟩ (c.validate s) out' := by
  obtain ⟨out₁, r, out', hout₁, hreload, hverdict, hout', hrenormalises⟩ := c.exists_normalised hload
  cases hout.symm.trans hout₁
  refine ⟨out', hrenormalises, fun again level => ?_⟩
  have hagrees (p : String) (hp : p ∈ t.consulted a.config) : t.AgreesAt t' p :=
    ⟨hwritten.isThere_other (hconfig p hp), hwritten.read_other (hconfig p hp)⟩
  have hc' := exec_findConfig_of_agrees hwritten.userConfig hagrees hc
  rw [← hverdict] at hclean ⊢
  exact passes_of_load hc' (hwritten.read_self hspot) hreload hclean hout'

/-! ## A desk -/

/-- A directory with a document, a configuration that names an exporter, and a directory. -/
def desk (text : String) : FileTree where
  files := [(["in"], text), (["c"], "[export]\nexporter = \"only\"\n")]
  directories := [["d"]]
  userConfig := none

/-- The configuration on the desk. -/
def deskConfig : Config := ⟨default, ⟨some "only", none⟩⟩

section

variable {text out : String} {s : Scope}

theorem isName_c : IsName "c" := ⟨by decide, by decide, by decide, by decide, by decide, by decide⟩
theorem isName_d : IsName "d" := ⟨by decide, by decide, by decide, by decide, by decide, by decide⟩
theorem isName_in : IsName "in" := ⟨by decide, by decide, by decide, by decide, by decide, by decide⟩
theorem isName_to : IsName "to" := ⟨by decide, by decide, by decide, by decide, by decide, by decide⟩
theorem isName_up : IsName "up" := ⟨by decide, by decide, by decide, by decide, by decide, by decide⟩

theorem exec_findConfig_desk (text : String) :
    (desk text).exec (findConfig (some "c")) = (.ok deskConfig, desk text) := by
  have hparse : Config.ofToml? "[export]\nexporter = \"only\"\n" = some deskConfig := by
    decide +kernel
  have hplace : (desk text).locate "c" = .file ["c"] "[export]\nexporter = \"only\"\n" := by
    rw [isName_c.locate]
    rfl
  refine Prod.ext (exec_readConfig_eq_ok.mpr ⟨?_, _, ?_, hparse⟩) (exec_findConfig_snd _ _)
  · rw [isThere, hplace]
  · rw [read, hplace]

/-- The configuration on the desk is none of the other names. -/
theorem desk_consulted (text : String) {names : List String} (h : names ≠ ["c"]) :
    ∀ p ∈ (desk text).consulted (some "c"), ((desk text).locate p).spot? ≠ some names := by
  intro p hp
  cases List.mem_singleton.mp hp
  rw [isName_c.spot? rfl]
  exact fun hsame => h (Option.some.inj hsame).symm

theorem desk_read_in (text : String) : (desk text).read "in" = .ok text := by
  rw [read, isName_in.locate]
  rfl

/-- A model that is loaded from the desk and has no errors is written beside the document. -/
theorem desk_writes (hload : Scope.load text = .ok s)
    (hclean : (deskConfig.validate s).hasErrors = false) :
    ∃ out t₁, deskConfig.writeText s = .ok out ∧ (desk text).Written ["to"] out t₁ ∧
      (desk text).exec (run ⟨"in", some "to", some "c", "info"⟩) = (.ok (deskConfig.validate s), t₁) ∧
      t₁.read "to" = .ok out := by
  obtain ⟨out, -, -, hout, -⟩ := deskConfig.exists_normalised hload
  have hfound := congrArg Prod.fst (exec_findConfig_desk text)
  have hpasses : (desk text).Passes ⟨"in", some "to", some "c", "info"⟩ (deskConfig.validate s) out :=
    passes_of_load hfound (desk_read_in text) hload hclean hout
  obtain ⟨t₁, hwrite⟩ := isName_to.exists_write (t := desk text) rfl out
  obtain ⟨names, hspot, hwritten⟩ := written_of_write hwrite
  cases hspot.symm.trans (isName_to.spot? rfl)
  exact ⟨out, t₁, hout, hwritten, hpasses.written_of_write rfl hwrite⟩

/-- There is room beside it for what a second run writes. -/
theorem desk_writes_again {out' : String} {report : Report} {t₁ : FileTree}
    (hwritten : (desk text).Written ["to"] out t₁)
    (hpasses : ∀ again level, t₁.Passes ⟨"to", again, some "c", level⟩ report out') :
    ∃ t₂, t₁.exec (run ⟨"to", some "up", some "c", "info"⟩) = (.ok report, t₂) ∧
      t₂.read "up" = .ok out' := by
  have hfile : t₁.isDirectory ["up"] = false := hwritten.isDirectory _
  obtain ⟨t₂, hwrite⟩ := isName_up.exists_write hfile out'
  exact ⟨t₂, (hpasses _ _).written_of_write rfl hwrite⟩

end

/-! ## What is written -/

/-- **Only checked, normalised documents are written, and normalising is idempotent.** A run that
fails changes nothing. One that does not has found no error, and changes nothing but the output, which
then holds the normal form of the input under the configuration that was found. If the search for the
configuration does not come by the output, a run on it passes with the same report and writes, where
it can write, the same text, except that an exporter which had to be written behind its version comes
to stand before it. -/
theorem run_normalises (t : FileTree) (a : Args) :
    (∀ failure t', t.exec (run a) = (.error failure, t') → t' = t) ∧
      ∀ report t', t.exec (run a) = (.ok report, t') → ∃ c text s,
        t.exec (findConfig a.config) = (.ok c, t) ∧ t.read a.input = .ok text ∧
        Scope.load text = .ok s ∧ report = c.validate s ∧ report.hasErrors = false ∧
        (a.output = none → t' = t) ∧
        ∀ path, a.output = some path → ∃ out names, c.writeText s = .ok out ∧
          (t.locate path).spot? = some names ∧ t.Written names out t' ∧ t'.read path = .ok out ∧
          ((∀ p ∈ t.consulted a.config, (t.locate p).spot? ≠ some names) →
            ∃ out', c.Renormalises s out out' ∧ ∀ again level,
              t'.Passes ⟨path, again, a.config, level⟩ report out') := by
  rcases t.exec_run_cases a with ⟨failure, hrun⟩ |
    ⟨c, text, s, report, hfound, hread, hload, hcheck, hrest⟩
  · refine ⟨fun _ t' h => ?_, fun report t' h => ?_⟩
    · cases hrun.symm.trans h
      rfl
    · cases hrun.symm.trans h
  · obtain ⟨rfl, hclean⟩ := Config.check_eq_ok.mp hcheck
    rcases hrest with ⟨houtput, hrun⟩ | ⟨path, out, t₁, houtput, hout, hwrite, hrun⟩
    · refine ⟨fun _ t' h => ?_, fun report t' h => ?_⟩
      · cases hrun.symm.trans h
      · cases hrun.symm.trans h
        refine ⟨c, text, s, hfound, hread, hload, rfl, hclean, fun _ => rfl, fun path hpath => ?_⟩
        cases houtput.symm.trans hpath
    · refine ⟨fun _ t' h => ?_, fun report t' h => ?_⟩
      · cases hrun.symm.trans h
      · cases hrun.symm.trans h
        obtain ⟨names, hspot, hwritten⟩ := written_of_write hwrite
        refine ⟨c, text, s, hfound, hread, hload, rfl, hclean, fun hnone => ?_, fun p hp => ?_⟩
        · cases houtput.symm.trans hnone
        · cases houtput.symm.trans hp
          exact ⟨out, names, hout, hspot, hwritten, hwritten.read_self hspot, fun hconfig =>
            passes_again (congrArg Prod.fst hfound) hload hclean hout hspot hwritten hconfig⟩

/-- A message is written with the exporter, and stays as it was written. -/
theorem run_normalises_message :
    let message : Node := (Node.bare "message").setText "id" "m"
    let source : Document := ⟨(((Node.bare "definitions").setText "id" "Defs").setText
      "targetNamespace" "urn:t").push message⟩
    ∃ report out t₁ t₂,
      (desk source.toText).exec (run ⟨"in", some "to", some "c", "info"⟩) = (.ok report, t₁) ∧
      t₁.read "to" = .ok out ∧
      t₁.exec (run ⟨"to", some "up", some "c", "info"⟩) = (.ok report, t₂) ∧
      t₂.read "up" = .ok out := by
  intro message source
  have hfits : source.Fits := by
    show source.root.Fits (61 + 1 + 1)
    simp [source, message]
  obtain ⟨s, hs⟩ : ∃ s, Scope.ofDocument source = .ok s := ⟨_, rfl⟩
  have hload := Scope.load_toText hfits hs
  have hclean : (deskConfig.validate s).hasErrors = false := by
    cases hs
    rfl
  have hversion : s.header.exporterVersion = none := by
    cases hs
    rfl
  obtain ⟨out, t₁, -, -, hrun, hread⟩ := desk_writes hload hclean
  obtain ⟨c, text, r, hfound, hin, hload', -, -, -, hrest⟩ := (run_normalises _ _).2 _ _ hrun
  obtain ⟨out₁, names, -, hspot, hwritten, hread₁, hagain⟩ := hrest "to" rfl
  cases (exec_findConfig_desk _).symm.trans hfound
  obtain rfl : source.toText = text := Except.ok.inj ((desk_read_in _).symm.trans hin)
  cases hload.symm.trans hload'
  cases hread.symm.trans hread₁
  cases hspot.symm.trans (isName_to.spot? rfl)
  obtain ⟨out', hrenormalises, hpasses⟩ := hagain (desk_consulted _ (by decide))
  obtain ⟨t₂, hrun', hread'⟩ := desk_writes_again hwritten hpasses
  have hsame : out' = out := hrenormalises.same fun hr => hr.2.1 hversion
  exact ⟨_, out, t₁, t₂, hrun, hread, hrun', hsame ▸ hread'⟩

/-- The second text is another one where the model names an exporter version only, and there is no
second text where there is a directory. -/
theorem run_normalises_exporterVersion :
    let source : Document := ⟨(((Node.bare "definitions").setText "id" "Defs").setText
      "targetNamespace" "urn:t").setText "exporterVersion" "9"⟩
    ∃ report out t₁ t₂,
      (desk source.toText).exec (run ⟨"in", some "to", some "c", "info"⟩) = (.ok report, t₁) ∧
      t₁.read "to" = .ok out ∧
      (∀ p ∈ (desk source.toText).consulted (some "c"),
        ((desk source.toText).locate p).spot? ≠ ((desk source.toText).locate "to").spot?) ∧
      t₁.exec (run ⟨"to", some "up", some "c", "info"⟩) = (.ok report, t₂) ∧
      t₂.read "up" ≠ .ok out ∧
      t₁.exec (run ⟨"to", some "d", some "c", "info"⟩) = (.error (.file .isDirectory), t₁) := by
  intro source
  have hfits : source.Fits := by
    show ∀ c ∈ source.root.children, c.Fits 62
    exact nofun
  obtain ⟨s, hs⟩ : ∃ s, Scope.ofDocument source = .ok s := ⟨_, rfl⟩
  have hload := Scope.load_toText hfits hs
  have hclean : (deskConfig.validate s).hasErrors = false := by
    cases hs
    rfl
  have hreorders : deskConfig.exporting.Reorders s.header := by
    cases hs
    exact ⟨rfl, nofun, nofun⟩
  obtain ⟨out, t₁, hout, hwritten, hrun, hread⟩ := desk_writes hload hclean
  have hfound := congrArg Prod.fst (exec_findConfig_desk source.toText)
  have hspot : ((desk source.toText).locate "to").spot? = some ["to"] := isName_to.spot? rfl
  have hconfig := desk_consulted source.toText (show ["to"] ≠ ["c"] by decide)
  obtain ⟨out', hrenormalises, hpasses⟩ := passes_again (a := ⟨"in", some "to", some "c", "info"⟩)
    hfound hload hclean hout hspot hwritten hconfig
  obtain ⟨t₂, hrun', hread'⟩ := desk_writes_again hwritten hpasses
  have hdirectory : t₁.isDirectory ["d"] = true := hwritten.isDirectory _
  have hrefused := isName_d.write_directory hdirectory out'
  refine ⟨_, out, t₁, t₂, hrun, hread, hspot ▸ hconfig, hrun', fun hsame => ?_,
    (hpasses (some "d") "info").refused_of_write rfl hrefused⟩
  exact (hrenormalises.swapped hreorders).1 (Except.ok.inj (hread'.symm.trans hsame))

end FileTree

end BpmnModel
