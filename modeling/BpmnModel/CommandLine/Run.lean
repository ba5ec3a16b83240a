import BpmnModel.CommandLine.Args
import BpmnModel.CommandLine.FileTree
import BpmnModel.Config.Toml
import BpmnModel.Workbench

/-!
# Running the program

* `findConfig` — the configuration that was asked for, else the one beside the documents, else that
  of the user, else the default. Models `load_config`, and `readConfig` models `load_config_file`.
* `run` — loads the input, checks it and, only if it has no errors, writes it out in normal form.
  Models `run`.
-/

namespace BpmnModel

variable {m : Type → Type} [Monad m] [Files m]

/-- Where a configuration is looked for beside the documents. -/
def localConfig : String := "swimlane/config.toml"

/-- Reads a configuration file, which has to be there. -/
def readConfig (path : String) : ExceptT Failure m Config := do
  if ← (Files.isThere path : m Bool) then
    match ← (Files.read path : m _) with
    | .error fault => throw (.file fault)
    | .ok text =>
      match Config.ofToml? text with
      | some config => return config
      | none => throw .unreadableConfig
  else throw (.missingConfig path)

/-- The configuration for a run. -/
def findConfig (asked : Option String) : ExceptT Failure m Config := do
  match asked with
  | some path => readConfig path
  | none =>
    if ← (Files.isThere localConfig : m Bool) then readConfig localConfig
    else
      match ← (Files.userConfig : m _) with
      | none => return default
      | some path => if ← (Files.isThere path : m Bool) then readConfig path else return default

/-- Checks the input and writes it out. -/
def run (args : Args) : ExceptT Failure m Report := do
  let config ← findConfig args.config
  match ← (Files.read args.input : m _) with
  | .error fault => throw (.file fault)
  | .ok text =>
    let scope ← ExceptT.mk (pure (Scope.load text))
    let report ← ExceptT.mk (pure (config.check scope))
    match args.output with
    | none => return report
    | some path =>
      let text ← ExceptT.mk (pure (config.writeText scope))
      match ← (Files.write path text : m _) with
      | .error fault => throw (.file fault)
      | .ok _ => return report

end BpmnModel
