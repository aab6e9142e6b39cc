import SelectionPlan.Graph.Build
import SelectionPlan.Text.Blank
import SelectionPlan.Toml.Document
/-!
# Settings

Settings choose how columns are named, what actions cost, how a schedule is run and where its
outputs go.
-/

namespace SelectionPlan

inductive NamingScheme
  /-- The columns of a variation carry its name. -/
  | schedule
  /-- Every systematic uses the logical name. -/
  | default
  deriving DecidableEq, Repr

def NamingScheme.text : NamingScheme → String
  | .schedule => "schedule"
  | .default => "default"

def NamingScheme.ofText? : String → Option NamingScheme
  | "schedule" => some .schedule
  | "default" => some .default
  | _ => none

def UnknownSystematicPolicy.text : UnknownSystematicPolicy → String
  | .fail => "error"
  | .skipRegion => "skip-region"

def UnknownSystematicPolicy.ofText? : String → Option UnknownSystematicPolicy
  | "error" => some .fail
  | "skip-region" => some .skipRegion
  | _ => none

structure NamingSettings where
  scheme : NamingScheme := .schedule
  /-- The label of the nominal systematic in files. -/
  nominalName : String := "nominal"
  separator : String := "__"
  systematicFirst : Bool := false
  deriving DecidableEq, Repr

def NamingSettings.namer (s : NamingSettings) : Namer :=
  match s.scheme with
  | .schedule => .tagged (NameTag.make s.separator s.systematicFirst)
  | .default => .plain

structure ExecutionSettings where
  /-- Whether rows may be evaluated in parallel; results do not depend on it. -/
  parallel : Bool := true
  /-- After how many realized actions a line of progress is shown; none is shown for zero. -/
  progressEvery : Nat := 0
  deriving DecidableEq, Repr

structure Settings where
  naming : NamingSettings := {}
  scheduling : BuildOptions := {}
  execution : ExecutionSettings := {}
  /-- Where outputs are put. -/
  directory : String := "cutgraph-out"
  deriving Repr

inductive SettingsError
  /-- A file with settings is there but has no text. -/
  | unreadable (path : String)
  /-- The text of a file is not TOML or has values of wrong types. -/
  | malformed (path : String)
  | unknownScheme (text : String)
  | unknownPolicy (text : String)
  | emptyNominalName
  | emptySeparator
  | badCost (cost : Float)
  deriving Repr

def SettingsError.message : SettingsError → String
  | .unreadable path => "I/O error: read " ++ path
  | .malformed path => "cannot parse " ++ path
  | .unknownScheme text =>
    "configuration error: unknown naming scheme '" ++ text ++ "' (schedule|default)"
  | .unknownPolicy text =>
    "configuration error: unknown on_unknown_systematic '" ++ text ++ "' (error|skip-region)"
  | .emptyNominalName => "configuration error: naming.nominal_name must not be empty"
  | .emptySeparator => "configuration error: naming.separator must not be empty"
  | .badCost cost =>
    "configuration error: scheduling.default_cost must be finite and non-negative, got " ++
      numberText cost

namespace Settings

def check (s : Settings) : Except SettingsError Unit :=
  let cost := s.scheduling.defaultCost
  if isBlankText s.naming.nominalName then .error .emptyNominalName
  else if s.naming.scheme = .schedule ∧ s.naming.separator = "" then .error .emptySeparator
  else if !cost.isFinite || decide (cost < 0) then .error (.badCost cost)
  else .ok ()

def document (s : Settings) : Toml.Document where
  entries := []
  sections :=
    [⟨"naming", false, [("scheme", .text s.naming.scheme.text),
      ("nominal_name", .text s.naming.nominalName), ("separator", .text s.naming.separator),
      ("systematic_first", .boolean s.naming.systematicFirst)]⟩,
     ⟨"scheduling", false, [("default_cost", .number s.scheduling.defaultCost),
      ("on_unknown_systematic", .text s.scheduling.onUnknownSystematic.text)]⟩,
     ⟨"execution", false, [("parallel", .boolean s.execution.parallel),
      ("progress_every", .natural s.execution.progressEvery)]⟩,
     ⟨"output", false, [("directory", .text s.directory)]⟩]

def template : String :=
  "# cutgraph configuration\n" ++
  "#\n" ++
  "# Locations (by precedence, lowest to highest):\n" ++
  "#   Global: ~/.config/cutgraph/cutgraph.toml\n" ++
  "#   Local:  <project_dir>/.cutgraph.toml\n" ++
  "#   Env:    CUTGRAPH_<SECTION>__<KEY>, e.g. CUTGRAPH_NAMING__SEPARATOR=__\n" ++
  "\n" ++
  "[naming]\n" ++
  "# \"schedule\" suffixes variations (jet_pt__JES_up), \"default\" never renames\n" ++
  "# scheme = \"schedule\"\n" ++
  "# nominal_name = \"nominal\"\n" ++
  "# separator = \"__\"\n" ++
  "# systematic_first = false\n" ++
  "\n" ++
  "[scheduling]\n" ++
  "# Cost of filters and variables without a cost hint\n" ++
  "# default_cost = 1.0\n" ++
  "# \"error\" fails the build, \"skip-region\" drops the region with a warning\n" ++
  "# on_unknown_systematic = \"error\"\n" ++
  "\n" ++
  "[execution]\n" ++
  "# parallel = true\n" ++
  "# Print a progress line every N realized actions (0 = off)\n" ++
  "# progress_every = 0\n" ++
  "\n" ++
  "[output]\n" ++
  "# directory = \"cutgraph-out\"\n"

end Settings
end SelectionPlan
