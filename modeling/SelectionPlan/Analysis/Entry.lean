import SelectionPlan.Toml.Record
/-!
# Entries of an analysis file

An analysis file is TOML.  It gives a dataset, variables of the root, nodes with their filters and
variables, and regions with their writers.  Keys it does not know are refused.
-/

namespace SelectionPlan

open Toml

structure VariableEntry where
  name : String
  expression : Option String
  column : Option String
  /-- The text for each variation, by ascending name: an expression, or a column if the variable is
  read from one. -/
  overrides : List (String × String)
  cost : Option Float
  deriving Repr

structure NodeEntry where
  name : String
  /-- The path of the parent; the root if there is none. -/
  parent : Option String
  filter : String
  overrides : List (String × String)
  cost : Option Float
  /-- The label of the node in cut flows. -/
  cutflow : Option String
  weight : Option String
  weightStrategy : Option String
  variableEntries : List VariableEntry
  deriving Repr

structure RegionEntry where
  name : String
  node : String
  systematics : List String
  writers : List String
  /-- The columns that object writers write. -/
  columns : List String
  weight : Option String
  deriving Repr

structure AnalysisFile where
  /-- Variations that are known without changing any column. -/
  systematics : List String
  weight : Option String
  /-- The columns of the dataset, by ascending name. -/
  columns : List (String × List Float)
  variableEntries : List VariableEntry
  nodes : List NodeEntry
  regions : List RegionEntry
  deriving Repr

namespace VariableEntry

def shape : RecordShape :=
  [("name", .refused), ("expression", .named), ("column", .named), ("overrides", .allowed),
   ("cost", .named)]

def ofValue? (v : Value) : Option VariableEntry := do
  let fields ← v.record? true shape
  return {
    name := ← fields.required? "name" Value.text?
    expression := ← fields.optional? "expression" Value.text?
    column := ← fields.optional? "column" Value.text?
    overrides := ← fields.field? "overrides" (Value.mapOf? Value.text?) []
    cost := ← fields.optional? "cost" Value.number? }

end VariableEntry

namespace NodeEntry

def shape : RecordShape :=
  [("name", .refused), ("parent", .named), ("filter", .refused), ("overrides", .allowed),
   ("cost", .named), ("cutflow", .named), ("weight", .named), ("weight_strategy", .named),
   ("variable", .allowed)]

def ofValue? (v : Value) : Option NodeEntry := do
  let fields ← v.record? true shape
  return {
    name := ← fields.required? "name" Value.text?
    parent := ← fields.optional? "parent" Value.text?
    filter := ← fields.required? "filter" Value.text?
    overrides := ← fields.field? "overrides" (Value.mapOf? Value.text?) []
    cost := ← fields.optional? "cost" Value.number?
    cutflow := ← fields.optional? "cutflow" Value.text?
    weight := ← fields.optional? "weight" Value.text?
    weightStrategy := ← fields.optional? "weight_strategy" Value.text?
    variableEntries := ← fields.field? "variable" (Value.listOf? VariableEntry.ofValue?) [] }

end NodeEntry

namespace RegionEntry

def shape : RecordShape :=
  [("name", .refused), ("node", .refused), ("systematics", .allowed), ("writers", .allowed),
   ("columns", .allowed), ("weight", .named)]

def ofValue? (v : Value) : Option RegionEntry := do
  let fields ← v.record? true shape
  let texts := Value.listOf? Value.text?
  return {
    name := ← fields.required? "name" Value.text?
    node := ← fields.required? "node" Value.text?
    systematics := ← fields.field? "systematics" texts []
    writers := ← fields.field? "writers" texts ["cutflow"]
    columns := ← fields.field? "columns" texts []
    weight := ← fields.optional? "weight" Value.text? }

end RegionEntry

namespace AnalysisFile

def shape : RecordShape :=
  [("systematics", .allowed), ("weight", .named), ("dataset", .allowed), ("variable", .allowed),
   ("node", .allowed), ("region", .allowed)]

def columnsOfValue? (v : Value) : Option (List (String × List Float)) := do
  let fields ← v.record? true [("columns", .allowed)]
  fields.field? "columns" (Value.mapOf? (Value.listOf? Value.number?)) []

def ofText? (text : String) : Option AnalysisFile := do
  let fields ← (Value.table .header (← Toml.read? text)).record? true shape
  return {
    systematics := ← fields.field? "systematics" (Value.listOf? Value.text?) []
    weight := ← fields.optional? "weight" Value.text?
    columns := ← fields.field? "dataset" columnsOfValue? []
    variableEntries := ← fields.field? "variable" (Value.listOf? VariableEntry.ofValue?) []
    nodes := ← fields.field? "node" (Value.listOf? NodeEntry.ofValue?) []
    regions := ← fields.field? "region" (Value.listOf? RegionEntry.ofValue?) [] }

end AnalysisFile
end SelectionPlan
