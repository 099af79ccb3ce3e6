import KernelAlgebra.Document.Toml.Table
import KernelAlgebra.Pipeline.FromYaml

/-!
# Configurations from TOML documents

A document is read up to the first thing in it that does not fit a configuration.
-/

namespace KernelAlgebra.Pipeline

open Document

inductive TomlError where
  | fault (f : Toml.Fault)
  | unknownField (line : Nat) (field type : String)
  /-- A value of one kind where another type is needed; `field` names the field that needs it. -/
  | wrongType (line : Nat) (field : Option String) (kind type : String)
  deriving DecidableEq, Repr

def neededFor (kind : String) : String :=
  match kind with
  | "array" | "array table" => " (need slice)"
  | "table" => " (need struct or map)"
  | _ => ""

def TomlError.message : TomlError → String
  | fault f => f.message
  | unknownField line field type => s!"line {line}: field '{field}' is not defined in {type}"
  | wrongType line field kind type =>
      let place := match field with
        | some name => s!"({name}) "
        | none => ""
      s!"line {line}: {place}cannot unmarshal TOML {kind} into {type}{neededFor kind}"

namespace FromToml

def kindOf : Toml.Field → String
  | .table _ => "table"
  | .tables _ => "array table"
  | .value _ v =>
      match v with
      | .text _ => "string"
      | .flag _ => "boolean"
      | .integer => "integer"
      | .float => "float"
      | .datetime => "datetime"
      | .array _ => "array"
      | .table _ _ => "table"

/-- A field that does not fit.  For a table, the field that needs another type is not named. -/
def mismatch {α : Type} (f : Toml.Field) (field : Option String) (type : String) :
    Except TomlError α :=
  let named := match f with
    | .table _ => none
    | _ => field
  .error (.wrongType f.line named (kindOf f) type)

def text (field : Option String) : Toml.Field → Except TomlError String
  | .value _ (.text (some s)) => .ok s
  | f => mismatch f field "string"

def flag (field : Option String) : Toml.Field → Except TomlError Bool
  | .value _ (.flag b) => .ok b
  | f => mismatch f field "bool"

def record {α : Type} (type : String)
    (set : String → Option (Toml.Field → α → Except TomlError α)) :
    Toml.Fields → α → Except TomlError α
  | [], a => .ok a
  | (name, f) :: rest, a => do
      match set name with
      | none => throw (.unknownField f.line name type)
      | some g => record type set rest (← g f a)

def entries {α : Type} (read : Toml.Field → Except TomlError α) (fields : Toml.Fields) :
    Except TomlError (List (String × α)) :=
  fields.mapM fun (name, f) => do return (name, ← read f)

def map {α : Type} (field type : String) (read : Toml.Field → Except TomlError α) :
    Toml.Field → Except TomlError (List (String × α))
  | .table t => entries read t.fields
  | f => mismatch f (some field) ("map[string]" ++ type)

def kernelField : String → Option (Toml.Field → KernelEntry → Except TomlError KernelEntry)
  | "source" => some fun f k => do
      return { k with source := ← text (some (kernelType ++ ".Source")) f }
  | "file" => some fun f k => do
      return { k with file := ← text (some (kernelType ++ ".File")) f }
  | "target" => some fun f k => do
      return { k with target := ← text (some (kernelType ++ ".Target")) f }
  | _ => none

def kernel : Toml.Field → Except TomlError KernelEntry
  | .table t => record kernelType kernelField t.fields {}
  | f => mismatch f none kernelType

def configField : String → Option (Toml.Field → Config → Except TomlError Config)
  | "optimize" => some fun f c => do
      return { c with optimize := some (← flag (some (configType ++ ".Optimize")) f) }
  | "kernels" => some fun f c => do
      return { c with kernels := ← map (configType ++ ".Kernels") kernelType kernel f }
  | "pipelines" => some fun f c => do
      return { c with pipelines := ← map (configType ++ ".Pipelines") "string" (text none) f }
  | _ => none

end FromToml

def Config.ofToml (source : String) : Except TomlError Config := do
  let fields ← (Toml.parse source).mapError .fault
  FromToml.record configType FromToml.configField fields {}

end KernelAlgebra.Pipeline
