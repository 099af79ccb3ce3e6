import KernelAlgebra.Failure
import KernelAlgebra.Text.Cut

/-!
# Pipeline configurations

A configuration has kernels by name, and named expressions over them.
-/

namespace KernelAlgebra.Pipeline

/-- A kernel of a configuration.  Exactly one of source and file is meant to be set. -/
structure KernelEntry where
  source : String := ""
  file : String := ""
  target : String := ""
  deriving DecidableEq, Repr

structure Config where
  optimize : Option Bool := none
  kernels : List (String × KernelEntry) := []
  pipelines : List (String × String) := []
  deriving DecidableEq, Repr

def byName {α : Type} (entries : List (String × α)) : List (String × α) :=
  entries.mergeSort fun a b => decide (a.1 ≤ b.1)

inductive ConfigError where
  | noPipelines
  | sourceAndFile (kernel : String)
  | shadowing (pipeline : String)
  | emptyPipeline (pipeline : String)
  deriving DecidableEq, Repr

def ConfigError.message : ConfigError → String
  | .noPipelines => "no pipelines defined"
  | .sourceAndFile k => s!"kernel {k} needs exactly one of source and file"
  | .shadowing p => s!"pipeline {p} shadows a kernel"
  | .emptyPipeline p => s!"pipeline {p} is empty"

/-- Several failures as one: a single failure stays what it is. -/
def gathered : List Failure → Except Failure Unit
  | [] => .ok ()
  | [f] => .error f
  | fs => .error (.combined ⟨fs.map Failure.message⟩)

namespace Config

def kernelErrors (k : String × KernelEntry) : List ConfigError :=
  if (k.2.source = "") = (k.2.file = "") then [.sourceAndFile k.1] else []

def pipelineErrors (c : Config) (p : String × String) : List ConfigError :=
  (if c.kernels.any (·.1 = p.1) then [.shadowing p.1] else []) ++
    (if Text.trimmed p.2 = "" then [.emptyPipeline p.1] else [])

/-- What is wrong with the shape of a configuration; expressions are not looked into. -/
def errors (c : Config) : List ConfigError :=
  (if c.pipelines.isEmpty then [.noPipelines] else []) ++
    (byName c.kernels).flatMap kernelErrors ++
    (byName c.pipelines).flatMap c.pipelineErrors

def validate (c : Config) : Except Failure Unit :=
  gathered (c.errors.map fun e => .other e.message)

def only? (c : Config) (name : String) : Option Config :=
  (c.pipelines.lookup name).map fun e => { c with pipelines := [(name, e)] }

end Config

end KernelAlgebra.Pipeline
