import SensorQuery.Model.Sensing
import SensorQuery.Path.Resolve
import SensorQuery.Query.Context
import SensorQuery.Text.Blank
import SensorQuery.Toml.Document

/-!
# Settings

The settings of a service: where its root is, which version of the protocol and which model it
speaks, and how it reads queries. They are written as a TOML document; what the document leaves out
keeps its usual value, and keys that name no setting are passed over.
-/

namespace SensorQuery

/-- The settings of a service. -/
structure Settings where
  /-- What is logged. -/
  logFilter : String
  serviceRoot : String
  /-- The text of the version that is spoken. -/
  version : String
  /-- The kind of key of every entity type. -/
  keyKind : KeyKind
  /-- The names of the extensions of the model, in the order they are applied. -/
  extensions : List String
  customLinks : Bool
  limits : Limits
deriving DecidableEq

/-- Why settings cannot hold. -/
inductive SettingsError where
  | emptyPath
  | emptyServiceRoot
  | version (source : PathError)
  | topBeyondMax (limits : Limits)
  | unknownExtension (name : String)
  | model (source : ModelError)
deriving DecidableEq

/-- The wording of the error. -/
def SettingsError.message : SettingsError → String
  | .emptyPath => "configuration error: configuration path must not be empty"
  | .emptyServiceRoot => "configuration error: service_root_url must not be empty"
  | .version source => s!"invalid version: {source.message}"
  | .topBeyondMax limits =>
    s!"configuration error: parser.defaults.top_default ({limits.topDefault}) exceeds "
      ++ s!"parser.defaults.top_max ({limits.topMax})"
  | .unknownExtension name => s!"configuration error: unknown model plugin '{name}'"
  | .model source => s!"model error: {source.message}"

/-- The name of a kind of key in settings. -/
def KeyKind.name : KeyKind → String
  | .long => "long"
  | .string => "string"
  | .uuid => "uuid"

namespace Settings

/-- What holds where nothing is set. -/
def usual : Settings where
  logFilter := "info"
  serviceRoot := "http://localhost:8080/sta"
  version := Version.v1_1.text
  keyKind := .long
  extensions := []
  customLinks := false
  limits := .usual

/-! ## Reading -/

/-- A setting of a group, which is a table of settings by name or an array of them in their order.
A date or a time is a group that sets nothing. No other value is a group. -/
def find? (group : Toml.Value) (position : Nat) (name : String) : Option (Option Toml.Value) :=
  match group with
  | .table t => some (t.get? name)
  | .array items => some items[position]?
  | .rows ts => some (ts[position]?.map .table)
  | .moment => some none
  | _ => none

/-- Reads a setting of a group, or keeps its usual value. -/
def read {α : Type} (group : Toml.Value) (position : Nat) (name : String)
    (of? : Toml.Value → Option α) (usual : α) : Option α := do
  match ← find? group position name with
  | none => pure usual
  | some v => of? v

/-- The text of a value. -/
def string? : Toml.Value → Option String
  | .string s => some s
  | _ => none

/-- The truth value of a value. -/
def boolean? : Toml.Value → Option Bool
  | .boolean b => some b
  | _ => none

/-- The number of a value that is not negative. -/
def natural? : Toml.Value → Option UInt64
  | .integer n => if 0 ≤ n then some n.toUInt64 else none
  | _ => none

/-- The texts of a value that is a list of texts. -/
def strings? : Toml.Value → Option (List String)
  | .array items => items.mapM string?
  | _ => none

/-- The kind of key with the name. -/
def keyKindNamed? (name : String) : Option KeyKind :=
  [KeyKind.long, .string, .uuid].find? (·.name = name)

/-- The kind of key that a value names: a text, or a table that has the name for its only key and
there a table or an array that holds nothing. -/
def keyKind? : Toml.Value → Option KeyKind
  | .string name => keyKindNamed? name
  | .table ⟨_, [(name, v)]⟩ => if v.holdsNothing then keyKindNamed? name else none
  | _ => none

/-- The limits in a group. -/
def limits? (v : Toml.Value) : Option Limits := do
  let topDefault ← read v 0 "top_default" natural? Limits.usual.topDefault
  let topMax ← read v 1 "top_max" natural? Limits.usual.topMax
  let countDefault ← read v 2 "count_default" boolean? Limits.usual.countDefault
  pure ⟨topDefault, topMax, countDefault⟩

/-- The kind of keys and the extensions in a group. -/
def model? (v : Toml.Value) : Option (KeyKind × List String) := do
  let keyKind ← read v 0 "id_kind" keyKind? usual.keyKind
  let extensions ← read v 1 "plugins" strings? usual.extensions
  pure (keyKind, extensions)

/-- What a group says of how queries are read. -/
def reading? (v : Toml.Value) : Option (Bool × Limits) := do
  let customLinks ← read v 0 "custom_links_enabled" boolean? usual.customLinks
  let limits ← read v 1 "defaults" limits? usual.limits
  pure (customLinks, limits)

/-- The settings of a document's table. -/
def ofTable? (t : Toml.Table Toml.Value) : Option Settings := do
  let root := Toml.Value.table t
  let logFilter ← read root 0 "log_level" string? usual.logFilter
  let serviceRoot ← read root 1 "service_root_url" string? usual.serviceRoot
  let version ← read root 2 "version" string? usual.version
  let (keyKind, extensions) ← read root 3 "model" model? (usual.keyKind, usual.extensions)
  let (customLinks, limits) ← read root 4 "parser" reading? (usual.customLinks, usual.limits)
  pure { logFilter, serviceRoot, version, keyKind, extensions, customLinks, limits }

/-- The settings of a document, if it is one and each setting has a value of its type. -/
def parse? (text : String) : Option Settings := do
  let t ← Toml.Table.parse? text
  ofTable? t

/-! ## Use -/

/-- The names of extensions that settings may list. -/
def knownExtensions : List String := ["multi_datastream"]

/-- Settings have a service root, a version that is spoken, limits that agree and extensions that
are known; the first that fails is reported. -/
def check (s : Settings) : Except SettingsError Unit :=
  if (Text.trim s.serviceRoot.toList).isEmpty then .error .emptyServiceRoot
  else
    match Version.parse s.version with
    | .error e => .error (.version e)
    | .ok _ =>
      if s.limits.topMax < s.limits.topDefault then .error (.topBeyondMax s.limits)
      else
        match s.extensions.find? fun name ↦ !knownExtensions.contains name with
        | some name => .error (.unknownExtension name)
        | none => .ok ()

/-- The builder with a step declared, unless the step fails. -/
def declared (b : Builder) (step : Declaration) : Except SettingsError Builder :=
  match b.declare step with
  | (more, none) => .ok more
  | (_, some e) => .error (.model e)

/-- The extension that is applied for a name, whatever names were let through before. -/
def extension? (keyKind : KeyKind) : String → Option Declaration
  | "multi_datastream" => some (Sensing.multi keyKind)
  | _ => none

/-- The builder with the extension of the name applied. -/
def extended (keyKind : KeyKind) (b : Builder) (name : String) : Except SettingsError Builder :=
  match extension? keyKind name with
  | some extension => declared b extension
  | none => .error (.unknownExtension name)

/-- The model: its core, and the extensions applied to it in order. -/
def model (s : Settings) : Except SettingsError Registry := do
  let core ← declared .empty (Sensing.core s.keyKind)
  let b ← s.extensions.foldlM (extended s.keyKind) core
  b.finalize.mapError .model

/-- How queries are read against a model. -/
def context (s : Settings) (model : Registry) : Context :=
  ⟨model, Catalog.standard, s.customLinks⟩

end Settings

end SensorQuery
