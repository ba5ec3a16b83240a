import BpmnModel.CommandLine.Reportable
import BpmnModel.CommandLine.Run

/-!
# Command line

The program that checks a document and writes it out in normal form. It is called with the input, and
with options for the output, the configuration and the level of messages.
-/

namespace BpmnModel

/-- The fault with a number of the system. Some operations report its negative. -/
def FileFault.ofCode? (code : UInt32) : Option FileFault :=
  match code.toInt32.toInt.natAbs with
  | 2 => some .missing
  | 20 => some .notDirectory
  | 21 => some .isDirectory
  | 36 => some .nameTooLong
  | _ => none

/-- Names the fault that the system reports. -/
def FileFault.ofError (e : IO.Error) : FileFault :=
  let fault :=
    match e with
    | .noFileOrDirectory _ code _ => ofCode? code
    | .inappropriateType _ code _ => ofCode? code
    | .invalidArgument _ code _ => ofCode? code
    | _ => none
  fault.getD (.other (toString e))

/-- Runs an operation on the file with a path and keeps its fault. -/
def keepFault {α : Type} (path : String) (action : IO α) : IO (Except FileFault α) := do
  if path.contains '\x00' then return .error .nulInName
  try return .ok (← action)
  catch e => return .error (FileFault.ofError e)

instance : Files IO where
  isThere path := do
    match ← keepFault path (IO.FS.Handle.mk path .read) with
    | .error .missing | .error .notDirectory | .error .nameTooLong | .error .nulInName =>
      return false
    | _ => return true
  read path := keepFault path (IO.FS.readFile path)
  write path text := keepFault path (IO.FS.writeFile path text)
  userConfig := do
    match ← IO.getEnv "XDG_CONFIG_HOME" with
    | some directory => return some (directory ++ "/swimlane/config.toml")
    | none => return (← IO.getEnv "HOME").map (· ++ "/.config/swimlane/config.toml")

/-- How the program is called. -/
def usage : String :=
  "Usage: swimlane <INPUT> [-o <OUTPUT>] [-c <CONFIG>] [--log-level <LEVEL>]"

/-- Shows what is to be shown, one item a line. -/
def display (items : List Reportable) : IO Unit :=
  for item in items do
    let code := (item.code.map fun code => " [" ++ code ++ "]").getD ""
    IO.eprintln (item.text ++ code)

end BpmnModel

open BpmnModel in
/-- Runs the program on the words of the command line. -/
def main (words : List String) : IO UInt32 := do
  match Args.parse words with
  | .error .displayHelp =>
    IO.println usage
    return 0
  | .error .displayVersion =>
    IO.println "swimlane 0.1.0"
    return 0
  | .error _ =>
    IO.eprintln usage
    return 2
  | .ok args =>
    match ← (BpmnModel.run args : ExceptT Failure IO Report).run with
    | .ok report =>
      display (Reportable.ofReport report)
      return 0
    | .error failure =>
      display (Reportable.ofFailure failure)
      return 1
