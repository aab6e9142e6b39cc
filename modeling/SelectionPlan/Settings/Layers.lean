import SelectionPlan.Settings.Basic
import SelectionPlan.Text.Expansion
import SelectionPlan.Toml.Record
/-!
# Layers of settings

Settings start from their defaults.  A global file, a file of the project and the environment each
override what the layers before them say, key by key.
-/

namespace SelectionPlan

/-- What a file says about settings; what it does not say is left to the layers below. -/
structure SettingsLayer where
  scheme : Option NamingScheme := none
  nominalName : Option String := none
  separator : Option String := none
  systematicFirst : Option Bool := none
  defaultCost : Option Float := none
  onUnknownSystematic : Option UnknownSystematicPolicy := none
  parallel : Option Bool := none
  progressEvery : Option Nat := none
  directory : Option String := none
  deriving Repr

namespace SettingsLayer

def sectionShape (keys : List String) : Toml.RecordShape := keys.map (·, .allowed)

def readSection? (members : Toml.Members) (name : String) (keys : List String) :
    Option Toml.Members :=
  members.field? name (Toml.Value.record? false (sectionShape keys)) []

def ofText? (text : String) : Option SettingsLayer := do
  let file ← Toml.read? text
  let naming ← readSection? file "naming"
    ["scheme", "nominal_name", "separator", "systematic_first"]
  let scheduling ← readSection? file "scheduling" ["default_cost", "on_unknown_systematic"]
  let execution ← readSection? file "execution" ["parallel", "progress_every"]
  let output ← readSection? file "output" ["directory"]
  return {
    scheme := ← naming.optional? "scheme" fun v => v.choice?.bind NamingScheme.ofText?
    nominalName := ← naming.optional? "nominal_name" Toml.Value.text?
    separator := ← naming.optional? "separator" Toml.Value.text?
    systematicFirst := ← naming.optional? "systematic_first" Toml.Value.boolean?
    defaultCost := ← scheduling.optional? "default_cost" Toml.Value.number?
    onUnknownSystematic := ← scheduling.optional? "on_unknown_systematic" fun v =>
      v.choice?.bind UnknownSystematicPolicy.ofText?
    parallel := ← execution.optional? "parallel" Toml.Value.boolean?
    progressEvery := ← execution.optional? "progress_every" Toml.Value.natural?
    directory := ← output.optional? "directory" Toml.Value.text? }

end SettingsLayer

namespace Settings

def override (s : Settings) (layer : SettingsLayer) : Settings where
  naming :=
    { scheme := layer.scheme.getD s.naming.scheme
      nominalName := layer.nominalName.getD s.naming.nominalName
      separator := layer.separator.getD s.naming.separator
      systematicFirst := layer.systematicFirst.getD s.naming.systematicFirst }
  scheduling :=
    { defaultCost := layer.defaultCost.getD s.scheduling.defaultCost
      onUnknownSystematic := layer.onUnknownSystematic.getD s.scheduling.onUnknownSystematic }
  execution :=
    { parallel := layer.parallel.getD s.execution.parallel
      progressEvery := layer.progressEvery.getD s.execution.progressEvery }
  directory := layer.directory.getD s.directory

end Settings

namespace Environment

def settingsMark : List Char := "CUTGRAPH_".toList

/-- The settings named in the environment, by keys such as `naming.scheme`.  Letter case does not
matter in names; of several names of one key the last one counts. -/
def settings (env : Environment) : List (String × String) :=
  (env.filterMap fun (name, value) =>
    let cs := name.toList.map Char.toLower
    let mark := settingsMark.map Char.toLower
    if mark.isPrefixOf cs then
      some (String.ofList (dots (cs.drop mark.length)), value)
    else none).reverse
where
  /-- A name with every pair of underscores replaced by a point. -/
  dots : List Char → List Char
    | [] => []
    | [c] => [c]
    | c :: d :: rest => if c = '_' ∧ d = '_' then '.' :: dots rest else c :: dots (d :: rest)

def readBoolean? (text : String) : Option Bool :=
  match text.map Char.toLower with
  | "1" | "true" | "on" | "yes" => some true
  | "0" | "false" | "off" | "no" => some false
  | _ => none

def readSwitch? (text : String) : Option Bool :=
  if text = "0" ∨ text = "1" then none else readBoolean? text

def readFloat? (text : String) : Option Float :=
  match readSwitch? text with
  | some b => some (if b then 1 else 0)
  | none => readNumber? text.toList

def readInteger? (text : String) : Option Int :=
  match readSwitch? text with
  | some b => some (if b then 1 else 0)
  | none =>
    let (negative, digits) := Decimal.splitSign text.toList
    if digits.isEmpty || !digits.all Char.isDigit then none
    else
      let n : Int := Decimal.digitsValue digits
      let value := if negative then -n else n
      if isInt64 value then some value else none

/-- The layer of the environment.  Values that do not have the type of their key are passed over,
but unknown names of schemes and policies are not; a negative interval counts as none. -/
def settingsLayer (env : Environment) : Except SettingsError SettingsLayer := do
  let value? := fun key => Environment.find? env.settings key
  let scheme ← (value? "naming.scheme").mapM fun text =>
    match NamingScheme.ofText? text with
    | some scheme => Except.ok scheme
    | none => .error (SettingsError.unknownScheme text)
  let policy ← (value? "scheduling.on_unknown_systematic").mapM fun text =>
    match UnknownSystematicPolicy.ofText? text with
    | some policy => Except.ok policy
    | none => .error (SettingsError.unknownPolicy text)
  return {
    scheme := scheme
    nominalName := value? "naming.nominal_name"
    separator := value? "naming.separator"
    systematicFirst := (value? "naming.systematic_first").bind readBoolean?
    defaultCost := (value? "scheduling.default_cost").bind readFloat?
    onUnknownSystematic := policy
    parallel := (value? "execution.parallel").bind readBoolean?
    progressEvery := ((value? "execution.progress_every").bind readInteger?).map Int.toNat
    directory := value? "output.directory" }

end Environment

structure SettingsFile where
  path : String
  text : Option String
  deriving DecidableEq, Repr

def SettingsFile.layer (file : SettingsFile) : Except SettingsError SettingsLayer :=
  match file.text with
  | none => .error (.unreadable file.path)
  | some text =>
    match SettingsLayer.ofText? text with
    | none => .error (.malformed file.path)
    | some layer => .ok layer

/-- The settings of some files, the weakest one first, and of the environment.  Variables in the
output directory are put in before the settings are checked. -/
def Settings.load (files : List SettingsFile) (env : Environment) :
    Except SettingsError Settings := do
  let layers ← files.mapM SettingsFile.layer
  let merged := (layers ++ [← env.settingsLayer]).foldl Settings.override {}
  let settings := { merged with directory := env.expand merged.directory }
  settings.check
  return settings

end SelectionPlan
