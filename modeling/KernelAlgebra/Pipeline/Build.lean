import KernelAlgebra.Assembly.Compile
import KernelAlgebra.Files
import KernelAlgebra.Pipeline.Config
import KernelAlgebra.Pipeline.Evaluation
import KernelAlgebra.Pipeline.Parser

/-!
# Building the pipelines of a configuration

Kernels are compiled in the order of their names and all their failures are reported
together.  Pipelines are evaluated in the order of their names up to the first failure.
-/

namespace KernelAlgebra.Pipeline

/-- Where the files of a configuration are: relative paths start from its directory. -/
structure Place where
  files : Files
  directory : String

structure BuildOptions where
  composer : Composer
  place : Option Place := none
  cancelled : Bool := false

structure Built where
  pipelines : List (String × Handle)
  warnings : List String

def cancelledFailure : Failure := .other "context canceled"

def kernelPath (directory file : String) : String :=
  if Path.isAbsolute file then file else Path.join directory file

def kernelSource (place : Option Place) (name : String) (k : KernelEntry) :
    Except Failure String :=
  if k.file = "" then .ok k.source
  else
    match place with
    | none =>
        .error (.other s!"kernel {name}: file {k.file} needs a config loaded from a filesystem")
    | some p =>
        let path := kernelPath p.directory k.file
        match p.files.read? path with
        | some text => .ok text
        | none => .error (.within s!"kernel {name}" (.other (Files.missingText path)))

def compileKernel (o : BuildOptions) (name : String) (k : KernelEntry) :
    Build Assembly.Lowered := do
  if o.cancelled then throw cancelledFailure
  match kernelSource o.place name k with
  | .error f => throw f
  | .ok source =>
      let env ← get
      let (r, g) := Assembly.compileWithWarnings (Text.ofString source) env.supply
      set { env with supply := g }
      match r with
      | .error f => throw (.within s!"kernel {name}" f)
      | .ok l => return { l with program := Assembly.retarget l.program k.target }

/-- Compiles kernels one after another; those that fail do not stop the others. -/
def compileKernels (o : BuildOptions) :
    List (String × KernelEntry) → Build (List Failure × List (String × Assembly.Lowered))
  | [] => return ([], [])
  | (name, k) :: rest => do
      let r : Except Failure Assembly.Lowered ←
        tryCatch (return .ok (← compileKernel o name k)) fun f => return .error f
      let (fs, ls) ← compileKernels o rest
      match r with
      | .ok l => return (fs, (name, l) :: ls)
      | .error f => return (f :: fs, ls)

def warningLines (l : String × Assembly.Lowered) : List String :=
  l.2.warnings.map fun w => s!"kernel {l.1}: {w.message}"

def evalPipeline (o : BuildOptions) (kernels : Kernels) (name source : String) :
    Build Handle := do
  if o.cancelled then throw cancelledFailure
  Build.inside s!"pipeline {name}" do
    match parseExpr (Text.ofString source) with
    | .error e => throw (.source e)
    | .ok e => eval o.composer kernels e

def Config.composer (c : Config) (base : Composer) : Composer :=
  { base with optimize := c.optimize.getD base.optimize }

def Config.build (c : Config) (o : BuildOptions) : Build Built := do
  let o := { o with composer := c.composer o.composer }
  let (failures, lowered) ← compileKernels o (byName c.kernels)
  match gathered failures with
  | .error f => throw f
  | .ok () =>
      let kernels ← lowered.mapM fun (name, l) => do
        return (name, ← Build.compose (Channels.plain l.program))
      let pipelines ← (byName c.pipelines).mapM fun (name, source) => do
        return (name, ← evalPipeline o kernels name source)
      return ⟨pipelines, lowered.flatMap warningLines⟩

end KernelAlgebra.Pipeline
