import BpmnModel.Validation.Options

/-!
# Configuration

* `Setting` — a tree of settings, wherever it was read from; `Setting.Form` holds what depends on
  that.
* `Config.ofSetting?` — the one place that knows which settings there are and of which shape. Other
  settings are passed over. Models the reading of `AppConfig`, with `ValidationOptions` and
  `ExportConfig` in it.
-/

namespace BpmnModel

/-- A setting, as far as any configuration can tell settings apart. -/
inductive Setting where
  | none
  | flag (value : Bool)
  /-- A number, which is small enough to be held or not. -/
  | number (fits : Bool)
  /-- A date or a time. -/
  | moment
  | text (value : String)
  | list (items : List Setting)
  | table (entries : List (String × Setting))

/-- Who is named as the exporter of a document whose model names nobody. -/
structure ExportSettings where
  exporter : Option String
  exporterVersion : Option String
deriving DecidableEq, Repr

/-- What can be configured. -/
structure Config where
  validation : ValidationOptions
  exporting : ExportSettings
deriving DecidableEq, Repr

instance : Inhabited Config := ⟨⟨default, ⟨none, none⟩⟩⟩

namespace Setting

/-- What the files that hold settings do in different ways. -/
structure Form where
  /-- Whether the list of a section may go on after the last name. -/
  surplus : Bool
  /-- Whether a setting is nothing. -/
  isNothing : Setting → Bool

/-- The form of settings in JSON. -/
def Form.json : Form where
  surplus := false
  isNothing
    | none => true
    | _ => false

mutual

/-- Whether a setting can be read at all: every number in it can be held. -/
def isReadable : Setting → Bool
  | number fits => fits
  | list items => areReadable items
  | table entries => areReadableEntries entries
  | _ => true

/-- Whether all items of a list can be read. -/
def areReadable : List Setting → Bool
  | [] => true
  | item :: items => isReadable item && areReadable items

/-- Whether all entries of a table can be read. -/
def areReadableEntries : List (String × Setting) → Bool
  | [] => true
  | (_, setting) :: entries => isReadable setting && areReadableEntries entries

end

/-- The settings of a section under these names: those of a table, or the items of a list in the
order of the names. What a table has under other names must be readable all the same. A moment is a
table of its parts, none of which has a name of a section. -/
def section? (form : Form) (names : List String) : Setting → Option (List (String × Setting))
  | table entries =>
    if entries.all fun (name, setting) => names.contains name || setting.isReadable then some entries
    else Option.none
  | list items =>
    if form.surplus || items.length ≤ names.length then some (names.zip items) else Option.none
  | moment => some []
  | _ => Option.none

/-- A word: a text, or a table with nothing under a single name. -/
def word? (form : Form) : Setting → Option String
  | text s => some s
  | table [(name, setting)] => if form.isNothing setting then some name else Option.none
  | _ => Option.none

/-- A text that may be left out. -/
def optionalText? : Setting → Option (Option String)
  | none => some Option.none
  | text s => some (some s)
  | _ => Option.none

/-- Reads the setting of this name, or takes the default if there is none. -/
def field? {α : Type} (entries : List (String × Setting)) (name : String) (standard : α)
    (read : Setting → Option α) : Option α :=
  match entries.lookup name with
  | some setting => read setting
  | Option.none => some standard

end Setting

namespace ValidationOptions

/-- Reads the names of rules. -/
def rulesOfSetting? (form : Setting.Form) : Setting → Option (List Rule)
  | .list items => items.mapM fun s => (s.word? form).bind Rule.find?
  | _ => none

def ofSetting? (form : Setting.Form) (s : Setting) : Option ValidationOptions := do
  let entries ← s.section? form ["mixed_gateways", "disabled_rules"]
  let mixedGateways ←
    Setting.field? entries "mixed_gateways" default fun s =>
      (s.word? form).bind MixedGatewayPolicy.find?
  let disabledRules ← Setting.field? entries "disabled_rules" [] (rulesOfSetting? form)
  return ⟨mixedGateways, disabledRules⟩

end ValidationOptions

namespace ExportSettings

def ofSetting? (form : Setting.Form) (s : Setting) : Option ExportSettings := do
  let entries ← s.section? form ["exporter", "exporter_version"]
  let exporter ← Setting.field? entries "exporter" none Setting.optionalText?
  let exporterVersion ← Setting.field? entries "exporter_version" none Setting.optionalText?
  return ⟨exporter, exporterVersion⟩

end ExportSettings

namespace Config

def ofSetting? (form : Setting.Form) (s : Setting) : Option Config := do
  let entries ← s.section? form ["validation", "export"]
  let validation ←
    Setting.field? entries "validation" default (ValidationOptions.ofSetting? form)
  let exporting ←
    Setting.field? entries "export" ⟨none, none⟩ (ExportSettings.ofSetting? form)
  return ⟨validation, exporting⟩

end Config

end BpmnModel
