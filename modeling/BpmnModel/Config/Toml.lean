import BpmnModel.Config.Basic
import BpmnModel.Toml.Reader

/-!
# Configuration files

Configurations are written in TOML. `Setting.ofToml` tells what its values are as settings, and
`Config.ofToml?` reads a whole file, as `load_config_file` has it read.
-/

namespace BpmnModel

namespace Setting

mutual

/-- A value as a setting. Tables that share a header are a list. -/
def ofToml : Toml.Value → Setting
  | .text s => text s
  | .number n => number n.fits
  | .flag b => flag b
  | .moment => moment
  | .list items => list (ofTomlItems items)
  | .table _ entries => table (ofTomlEntries entries)
  | .rows earlier last => list (ofTomlItems earlier ++ [table (ofTomlEntries last)])

/-- The values of a list as settings. -/
def ofTomlItems : List Toml.Value → List Setting
  | [] => []
  | item :: items => ofToml item :: ofTomlItems items

/-- The entries of a table as settings. -/
def ofTomlEntries : List (String × Toml.Value) → List (String × Setting)
  | [] => []
  | (name, value) :: entries => (name, ofToml value) :: ofTomlEntries entries

end

/-- The form of settings in TOML: a list may go on after the last name of a section, and an empty
table or list is nothing. -/
def Form.toml : Form where
  surplus := true
  isNothing
    | table [] => true
    | list [] => true
    | _ => false

end Setting

/-- Reads a configuration file. -/
def Config.ofToml? (text : String) : Option Config :=
  match Toml.parse text with
  | some entries => Config.ofSetting? .toml (.table (Setting.ofTomlEntries entries))
  | none => none

end BpmnModel
