import KernelAlgebra.Document.Yaml.Meaning
import KernelAlgebra.Pipeline.Config
import KernelAlgebra.Text.Quote

/-!
# Configurations from YAML documents

A document is read to its end, and everything in it that does not fit a configuration is
reported together.  Keys that a configuration does not have do not fit.
-/

namespace KernelAlgebra.Pipeline

open Document

def configType : String := "pipeline.Config"

def kernelType : String := "pipeline.Kernel"

inductive Mismatch where
  | wrongType (line : Nat) (tag text type : String)
  | unknownField (line : Nat) (field type : String)
  | fieldTwice (line : Nat) (field type : String)
  | keyTwice (line : Nat) (key : String)
  deriving DecidableEq, Repr

/-- A text in a message: one of more than ten bytes is cut after the seventh. -/
def shortened (text : String) : String :=
  if 10 < text.utf8ByteSize then (Text.decode (text.toUTF8.toList.take 7)).shown ++ "..."
  else text

/-- A value in a message: collections show no text of their own. -/
def shownValue (tag text : String) : String :=
  if tag = Yaml.Tag.sequence || tag = Yaml.Tag.mapping then Yaml.shortTag tag ++ text
  else Yaml.shortTag tag ++ " `" ++ shortened text ++ "`"

def Mismatch.message : Mismatch → String
  | wrongType line tag text type =>
      s!"line {line}: cannot unmarshal {shownValue tag text} into {type}"
  | unknownField line field type => s!"line {line}: field {field} not found in type {type}"
  | fieldTwice line field type => s!"line {line}: field {field} already set in type {type}"
  | keyTwice line key => s!"line {line}: key {Text.quoted key} already set in map"

/-- Reading goes on after a mismatch, but not after a fault. -/
abbrev Reading := StateT (List Mismatch) (Except Yaml.Fault)

namespace Reading

def complain (m : Mismatch) : Reading Unit := modify (· ++ [m])

def lineNumber (above : Nat) : Nat := above + 1

/-! ## Scalars -/

def Meaning.tag : Yaml.Meaning → String
  | .null => Yaml.Tag.null
  | .bool _ => Yaml.Tag.bool
  | .text tag _ => tag

def wrongScalar (s : Yaml.Scalar) (m : Yaml.Meaning) (type : String) : Reading Unit :=
  let tag := if s.tag = "" then Meaning.tag m else s.tag
  complain (.wrongType (lineNumber s.line) tag s.text type)

def wrongSequence (line : Nat) (type : String) : Reading Unit :=
  complain (.wrongType (lineNumber line) Yaml.Tag.sequence "" type)

def wrongMapping (line : Nat) (type : String) : Reading Unit :=
  complain (.wrongType (lineNumber line) Yaml.Tag.mapping "" type)

/-- A text: null is empty, and numbers and the like are taken as they are written. -/
def text (n : Yaml.Node) : Reading (Option String) := do
  match ← n.content with
  | .scalar s =>
      match ← s.meaning with
      | .null => return some ""
      | .bool _ => return some s.text
      | .text _ t => return some t
  | .sequence line =>
      wrongSequence line "string"
      return none
  | .mapping line _ =>
      wrongMapping line "string"
      return none

def isMissing (s : Yaml.Scalar) : Bool :=
  s.tag = Yaml.Tag.null ||
    (s.tag = "" && (s.text = "null" || s.text = "~" || (s.text = "" && s.plain)))

/-- A truth value that may be missing.  A null that is not written as missing is false. -/
def flag (n : Yaml.Node) (current : Option Bool) : Reading (Option Bool) := do
  match ← n.content with
  | .scalar s =>
      match ← s.meaning with
      | .null => return if isMissing s then none else some false
      | .bool b => return some b
      | m =>
          wrongScalar s m (if isMissing s then "*bool" else "bool")
          return current
  | .sequence line =>
      wrongSequence line "bool"
      return current
  | .mapping line _ =>
      wrongMapping line "bool"
      return current

/-! ## Collections -/

/--
Reads the fields of a record; `set` knows the fields.  A mapping has a field once at most, and
`seen` holds those of the open mappings, the innermost one first.
-/
def fields {α : Type} (type : String) (set : String → Option (Yaml.Node → α → Reading α)) :
    List Yaml.Part → List (List String) → α → Reading α
  | [], _, a => return a
  | .opens :: rest, seen, a => fields type set rest ([] :: seen) a
  | .closes :: rest, seen, a => fields type set rest seen.tail a
  | .fault c :: _, _, _ => fun _ => .error { complaint := c }
  | .entry key value :: rest, seen, a => do
      match ← text key with
      | none => fields type set rest seen a
      | some name =>
          match set name with
          | none =>
              complain (.unknownField (lineNumber key.line) name type)
              fields type set rest seen a
          | some f =>
              let here := seen.head?.getD []
              if here.contains name then
                complain (.fieldTwice (lineNumber key.line) name type)
                fields type set rest seen a
              else
                let a ← f value a
                fields type set rest ((name :: here) :: seen.tail) a

def record {α : Type} (type : String) (set : String → Option (Yaml.Node → α → Reading α))
    (start : α) (n : Yaml.Node) : Reading (Option α) := do
  match ← n.content with
  | .scalar s =>
      match ← s.meaning with
      | .null => return some start
      | m =>
          wrongScalar s m type
          return none
  | .sequence line =>
      wrongSequence line type
      return none
  | .mapping _ entries => return some (← fields type set (Yaml.partsOf entries) [[]] start)

/-- Reads entries by name; one that cannot be read is left out. -/
def entries {α : Type} (read : Yaml.Node → Reading (Option α)) :
    List Yaml.Part → List (String × α) → Reading (List (String × α))
  | [], done => return done
  | .opens :: rest, done | .closes :: rest, done => entries read rest done
  | .fault c :: _, _ => fun _ => .error { complaint := c }
  | .entry key value :: rest, done => do
      match ← text key with
      | none => entries read rest done
      | some name =>
          match ← read value with
          | none => entries read rest done
          | some a =>
              if done.any (·.1 = name) then
                complain (.keyTwice (lineNumber value.line) name)
                entries read rest done
              else entries read rest (done ++ [(name, a)])

/-- Adds the entries of a mapping to those that are already known; null removes them. -/
def map {α : Type} (type : String) (read : Yaml.Node → Reading (Option α)) (n : Yaml.Node)
    (current : List (String × α)) : Reading (List (String × α)) := do
  let type := "map[string]" ++ type
  match ← n.content with
  | .scalar s =>
      match ← s.meaning with
      | .null => return []
      | m =>
          wrongScalar s m type
          return current
  | .sequence line =>
      wrongSequence line type
      return current
  | .mapping _ list => entries read (Yaml.partsOf list) current

/-! ## Configurations -/

def textField (n : Yaml.Node) (current : String) : Reading String := do
  return (← text n).getD current

def kernelField : String → Option (Yaml.Node → KernelEntry → Reading KernelEntry)
  | "source" => some fun n k => do return { k with source := ← textField n k.source }
  | "file" => some fun n k => do return { k with file := ← textField n k.file }
  | "target" => some fun n k => do return { k with target := ← textField n k.target }
  | _ => none

def kernel : Yaml.Node → Reading (Option KernelEntry) := record kernelType kernelField {}

def configField : String → Option (Yaml.Node → Config → Reading Config)
  | "optimize" => some fun n c => do return { c with optimize := ← flag n c.optimize }
  | "kernels" => some fun n c => do
      return { c with kernels := ← map kernelType kernel n c.kernels }
  | "pipelines" => some fun n c => do
      return { c with pipelines := ← map "string" text n c.pipelines }
  | _ => none

def config (n : Yaml.Node) : Reading Config := do
  return (← record configType configField {} n).getD {}

end Reading

inductive YamlError where
  | fault (f : Yaml.Fault)
  | mismatches (ms : List Mismatch)
  deriving DecidableEq, Repr

def YamlError.message : YamlError → String
  | fault f => f.message
  | mismatches ms =>
      "yaml: unmarshal errors:\n  " ++ String.intercalate "\n  " (ms.map Mismatch.message)

def Config.ofYaml (source : Text) : Except YamlError Config := do
  match ← (Yaml.parse source).mapError .fault with
  | none => return {}
  | some n =>
      match ← ((Reading.config n).run []).mapError .fault with
      | (c, []) => return c
      | (_, ms) => throw (.mismatches ms)

end KernelAlgebra.Pipeline
