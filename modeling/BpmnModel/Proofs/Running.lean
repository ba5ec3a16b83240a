import BpmnModel.CommandLine.Run
import BpmnModel.Proofs.FileTrees

/-!
# What a run does to a tree of files

* `FileTree.exec` — a program, run on a tree.
* `FileTree.consulted` — the paths at which a configuration is looked for; where these read the same,
  the same configuration is found (`FileTree.exec_findConfig_of_agrees`).
* `FileTree.exec_run` — a run, once its configuration is found.
* `FileTree.exec_run_cases` — a run either fails and leaves the tree as it was, or passes the check and
  then writes at most the output.
-/

namespace BpmnModel

namespace FileTree

/-! ## Programs on trees -/

/-- Runs a program on the tree. -/
def exec {α : Type} (t : FileTree) (program : ExceptT Failure (StateM FileTree) α) :
    Except Failure α × FileTree :=
  program.run.run t

section

variable (t : FileTree) {α β : Type}

theorem exec_bind (x : ExceptT Failure (StateM FileTree) α)
    (f : α → ExceptT Failure (StateM FileTree) β) : t.exec (x >>= f) =
      match t.exec x with
      | (.ok a, t') => t'.exec (f a)
      | (.error failure, t') => (.error failure, t') := by
  have hrun : t.exec (x >>= f) = ExceptT.bindCont f (t.exec x).1 (t.exec x).2 := rfl
  rw [hrun]
  rcases t.exec x with ⟨_ | a, t'⟩ <;> rfl

theorem exec_mk (x : Except Failure α) : t.exec (ExceptT.mk (pure x)) = (x, t) := rfl

theorem exec_lift (x : StateM FileTree α) :
    t.exec (liftM x) = (.ok (x.run t).1, (x.run t).2) := rfl

theorem run_write (path text : String) :
    (Files.write path text : StateM FileTree (Except FileFault Unit)).run t =
      match t.write path text with
      | .ok t' => (.ok (), t')
      | .error fault => (.error fault, t) := by
  show StateT.run (match t.write path text with | .ok t' => _ | .error fault => _) t = _
  cases t.write path text <;> rfl

end

variable {t t' : FileTree} {c : Config}

/-! ## The configuration -/

theorem exec_readConfig (t : FileTree) (path : String) : t.exec (readConfig path) =
    (if t.isThere path then
      match t.read path with
      | .error fault => .error (.file fault)
      | .ok text =>
        match Config.ofToml? text with
        | some c => .ok c
        | none => .error .unreadableConfig
    else .error (.missingConfig path), t) := by
  unfold readConfig
  rw [exec_bind, exec_lift]
  show t.exec (if t.isThere path = true then _ else _) = _
  split
  · rw [exec_bind, exec_lift]
    show t.exec (match t.read path with | .error fault => _ | .ok text => _) = _
    cases t.read path with
    | error fault => rfl
    | ok text =>
      show t.exec (match Config.ofToml? text with | some c => _ | none => _) = _
      cases h : Config.ofToml? text <;> simp only [h] <;> rfl
  · rfl

/-- A configuration comes from a file that is there and is one. -/
theorem exec_readConfig_eq_ok {path : String} : (t.exec (readConfig path)).1 = .ok c ↔
    t.isThere path = true ∧ ∃ text, t.read path = .ok text ∧ Config.ofToml? text = some c := by
  rw [exec_readConfig]
  cases t.isThere path with
  | false => simp
  | true =>
    cases t.read path with
    | error fault => simp
    | ok text => cases h : Config.ofToml? text <;> simp [h]

theorem exec_findConfig_none (t : FileTree) : t.exec (findConfig none) =
    if t.isThere localConfig then t.exec (readConfig localConfig)
    else
      match t.userConfig with
      | none => (.ok default, t)
      | some path => if t.isThere path then t.exec (readConfig path) else (.ok default, t) := by
  unfold findConfig
  simp only
  rw [exec_bind, exec_lift]
  show t.exec (if t.isThere localConfig = true then _ else _) = _
  split
  · rfl
  · rw [exec_bind, exec_lift]
    show t.exec (match t.userConfig with | none => _ | some path => _) = _
    cases t.userConfig with
    | none => rfl
    | some path =>
      simp only
      rw [exec_bind, exec_lift]
      show t.exec (if t.isThere path = true then _ else _) = _
      split <;> rfl

/-- The search for a configuration changes nothing. -/
theorem exec_findConfig_snd (t : FileTree) (asked : Option String) :
    (t.exec (findConfig asked)).2 = t := by
  cases asked with
  | some path => exact congrArg Prod.snd (t.exec_readConfig path)
  | none =>
    rw [exec_findConfig_none, exec_readConfig]
    split
    · rfl
    · cases t.userConfig with
      | none => rfl
      | some path =>
        simp only [exec_readConfig]
        split <;> rfl

/-- The paths at which a run looks for its configuration. -/
def consulted (t : FileTree) (asked : Option String) : List String :=
  match asked with
  | some path => [path]
  | none => if t.isThere localConfig then [localConfig] else localConfig :: t.userConfig.toList

/-- The path looks the same in both trees to a program. -/
structure AgreesAt (t t' : FileTree) (path : String) : Prop where
  isThere : t'.isThere path = t.isThere path
  read : ∀ text, t'.read path = .ok text ↔ t.read path = .ok text

theorem AgreesAt.readConfig {path : String} (h : t.AgreesAt t' path)
    (hc : (t.exec (readConfig path)).1 = .ok c) : (t'.exec (BpmnModel.readConfig path)).1 = .ok c := by
  rw [exec_readConfig_eq_ok] at hc ⊢
  simpa only [h.isThere, h.read] using hc

/-- **Where the paths of the search look the same, the same configuration is found.** -/
theorem exec_findConfig_of_agrees {asked : Option String} (huser : t'.userConfig = t.userConfig)
    (h : ∀ path ∈ t.consulted asked, t.AgreesAt t' path)
    (hc : (t.exec (findConfig asked)).1 = .ok c) : (t'.exec (findConfig asked)).1 = .ok c := by
  cases asked with
  | some path => exact (h path List.mem_cons_self).readConfig hc
  | none =>
    rw [exec_findConfig_none] at hc ⊢
    unfold consulted at h
    cases hlocal : t.isThere localConfig with
    | true =>
      simp only [hlocal, if_true] at h hc
      have hagrees := h _ List.mem_cons_self
      rw [hagrees.isThere, hlocal, if_pos rfl]
      exact hagrees.readConfig hc
    | false =>
      simp only [hlocal, Bool.false_eq_true, if_false] at h hc
      rw [(h _ List.mem_cons_self).isThere, hlocal, if_neg Bool.false_ne_true, huser]
      cases huser : t.userConfig with
      | none => rwa [huser] at hc
      | some path =>
        rw [huser] at h hc
        have hagrees := h path (List.mem_cons_of_mem _ List.mem_cons_self)
        simp only [hagrees.isThere] at hc ⊢
        split at hc
        · rename_i hthere
          rw [if_pos hthere]
          exact hagrees.readConfig hc
        · rename_i hthere
          rwa [if_neg hthere]

/-! ## A run -/

/-- A run, once its configuration is found. -/
theorem exec_run {a : Args} (h : t.exec (findConfig a.config) = (.ok c, t)) : t.exec (run a) =
    match t.read a.input with
    | .error fault => (.error (.file fault), t)
    | .ok text =>
      match Scope.load text with
      | .error failure => (.error failure, t)
      | .ok s =>
        match c.check s with
        | .error failure => (.error failure, t)
        | .ok report =>
          match a.output with
          | none => (.ok report, t)
          | some path =>
            match c.writeText s with
            | .error failure => (.error failure, t)
            | .ok out =>
              match t.write path out with
              | .error fault => (.error (.file fault), t)
              | .ok t' => (.ok report, t') := by
  unfold run
  rw [exec_bind, h]
  simp only
  rw [exec_bind, exec_lift]
  show t.exec (match t.read a.input with | .error fault => _ | .ok text => _) = _
  cases t.read a.input with
  | error fault => rfl
  | ok text =>
    simp only [exec_bind, exec_mk]
    cases Scope.load text with
    | error failure => rfl
    | ok s =>
      simp only
      cases c.check s with
      | error failure => rfl
      | ok report =>
        simp only
        cases a.output with
        | none => rfl
        | some path =>
          simp only [exec_bind, exec_mk]
          cases c.writeText s with
          | error failure => rfl
          | ok out =>
            simp only [exec_lift, run_write]
            cases t.write path out <;> rfl

/-- **How a run ends.** It fails and leaves the tree as it was, or it checked the input, found no
error and wrote at most the output. -/
theorem exec_run_cases (t : FileTree) (a : Args) :
    (∃ failure, t.exec (run a) = (.error failure, t)) ∨
      ∃ c text s report, t.exec (findConfig a.config) = (.ok c, t) ∧ t.read a.input = .ok text ∧
        Scope.load text = .ok s ∧ c.check s = .ok report ∧
          ((a.output = none ∧ t.exec (run a) = (.ok report, t)) ∨
            ∃ path out t', a.output = some path ∧ c.writeText s = .ok out ∧
              t.write path out = .ok t' ∧ t.exec (run a) = (.ok report, t')) := by
  obtain ⟨found, hfound⟩ : ∃ found, t.exec (findConfig a.config) = (found, t) :=
    ⟨_, Prod.ext rfl (t.exec_findConfig_snd a.config)⟩
  cases found with
  | error failure =>
    refine .inl ⟨failure, ?_⟩
    rw [run, exec_bind, hfound]
  | ok c =>
    have hrun := exec_run hfound
    cases hread : t.read a.input with
    | error fault =>
      rw [hread] at hrun
      exact .inl ⟨_, hrun⟩
    | ok text =>
      cases hload : Scope.load text with
      | error failure =>
        simp only [hread, hload] at hrun
        exact .inl ⟨_, hrun⟩
      | ok s =>
        cases hcheck : c.check s with
        | error failure =>
          simp only [hread, hload, hcheck] at hrun
          exact .inl ⟨_, hrun⟩
        | ok report =>
          simp only [hread, hload, hcheck] at hrun
          cases houtput : a.output with
          | none =>
            rw [houtput] at hrun
            exact .inr ⟨c, text, s, report, hfound, rfl, hload, hcheck, .inl ⟨rfl, hrun⟩⟩
          | some path =>
            cases hwrite : c.writeText s with
            | error failure =>
              simp only [houtput, hwrite] at hrun
              exact .inl ⟨_, hrun⟩
            | ok out =>
              cases htree : t.write path out with
              | error fault =>
                simp only [houtput, hwrite, htree] at hrun
                exact .inl ⟨_, hrun⟩
              | ok t' =>
                simp only [houtput, hwrite, htree] at hrun
                exact .inr ⟨c, text, s, report, hfound, rfl, hload, hcheck,
                  .inr ⟨path, out, t', rfl, hwrite, htree, hrun⟩⟩

end FileTree

end BpmnModel
