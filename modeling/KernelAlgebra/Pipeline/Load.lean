import KernelAlgebra.Files
import KernelAlgebra.Pipeline.Build
import KernelAlgebra.Pipeline.FromToml
import KernelAlgebra.Pipeline.FromYaml
import KernelAlgebra.Text.Quote

/-!
# Pipeline files

A pipeline file is a configuration that knows where it comes from.
-/

namespace KernelAlgebra.Pipeline

/-!
## Reading configurations from documents

A document is in one of two formats, and a file says by its extension in which one.
-/

open Document

inductive Format where
  | yaml
  | toml
  deriving DecidableEq, Repr

namespace Format

def name : Format → String
  | yaml => "yaml"
  | toml => "toml"

def ofName? (name : String) : Option Format := [yaml, toml].find? (·.name = name)

def ofPath (path : String) : Format :=
  match Path.extension? path with
  | some e => if e.map Char.toLower = ".toml" then toml else yaml
  | none => yaml

end Format

inductive DecodeError where
  | yaml (e : YamlError)
  | toml (e : TomlError)
  | unknownFormat (name : String)
  | invalid (f : Failure)

namespace DecodeError

def toFailure : DecodeError → Failure
  | yaml e => .other e.message
  | toml e => .other e.message
  | unknownFormat name => .other s!"unknown pipeline format {Text.quoted name}"
  | invalid f => f

/-- The failure of a file: errors with a line of their own follow the path on its line. -/
def inFile (path : String) (e : DecodeError) : Failure :=
  match e with
  | toml _ => .other s!"{path}, {e.toFailure.message}"
  | _ => .within s!"can't parse {path}" e.toFailure

end DecodeError

def decode (format : Format) (source : Text) : Except DecodeError Config :=
  match format with
  | .yaml => (Config.ofYaml source).mapError .yaml
  | .toml => (Config.ofToml source.shown).mapError .toml

def parse (format : Format) (source : Text) : Except DecodeError Config := do
  let c ← decode format source
  match c.validate with
  | .ok () => .ok c
  | .error f => .error (.invalid f)

def parseNamed (format : String) (source : Text) : Except DecodeError Config :=
  match Format.ofName? format with
  | some f => parse f source
  | none => .error (.unknownFormat format)

/-! ## Files -/

structure PipelineFile where
  config : Config
  place : Place

namespace PipelineFile

def load (files : Files) (path : String) : Except Failure PipelineFile :=
  match files.read? path with
  | none => .error (.within "can't read pipeline file" (.other (Files.missingText path)))
  | some text =>
      match parse (Format.ofPath path) (Text.ofString text) with
      | .ok c => .ok ⟨c, ⟨files, Path.directory path⟩⟩
      | .error e => .error (e.inFile path)

def only? (f : PipelineFile) (name : String) : Option PipelineFile :=
  (f.config.only? name).map fun c => { f with config := c }

def build (f : PipelineFile) (c : Composer) : Build Built :=
  f.config.build { composer := c, place := some f.place }

def kernelPaths (f : PipelineFile) : List String :=
  ((byName f.config.kernels).filter fun k => k.2.file ≠ "").map fun k =>
    kernelPath f.place.directory k.2.file

end PipelineFile

end KernelAlgebra.Pipeline
