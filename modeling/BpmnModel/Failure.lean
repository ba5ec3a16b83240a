import BpmnModel.Document.Error
import BpmnModel.Validation.Report

/-!
# Failures

* `FileFault` — why a file could not be read or written.
* `Failure` — why a model could not be loaded, checked or written. Models `SwimlaneError` and the
  `ConfigError` of a configuration that cannot be used.
-/

namespace BpmnModel

/-- Why a file could not be read or written. -/
inductive FileFault where
  | missing
  | isDirectory
  | notDirectory
  | nameTooLong
  /-- The path holds the character that ends texts in the system. -/
  | nulInName
  /-- Anything else, in the words of the system. -/
  | other (text : String)
deriving DecidableEq, Repr

/-- The fault in words, with the number of the system. -/
def FileFault.message : FileFault → String
  | missing => "No such file or directory (os error 2)"
  | isDirectory => "Is a directory (os error 21)"
  | notDirectory => "Not a directory (os error 20)"
  | nameTooLong => "File name too long (os error 36)"
  | nulInName => "file name contained an unexpected NUL byte"
  | other text => text

/-- Why a model could not be loaded, checked or written. -/
inductive Failure where
  /-- A file could not be read or written. -/
  | file (fault : FileFault)
  /-- The configuration file that was asked for is not there. -/
  | missingConfig (path : String)
  /-- A configuration file is not a configuration. -/
  | unreadableConfig
  /-- A document could not be read or written. -/
  | document (error : DocumentError)
  /-- The model has errors. -/
  | validation (report : Report)
deriving DecidableEq

namespace Failure

/-- The name of the cause, without its details. -/
def kindName : Failure → String
  | file _ | missingConfig _ | unreadableConfig => "Io"
  | document error => error.kindName
  | validation _ => "Validation"

/-- The failure in words. -/
def message : Failure → String
  | file fault => "I/O error: " ++ fault.message
  | missingConfig path => s!"I/O error: Missing configuration file: {path}"
  | unreadableConfig => "I/O error: Failed to parse TOML configuration"
  | document error => error.message
  | validation report => report.text

/-- The code under which the failure is reported. -/
def code? : Failure → Option String
  | file _ | missingConfig _ | unreadableConfig => some "swimlane::io"
  | document _ => some "swimlane::document"
  | validation _ => none

end Failure

end BpmnModel
