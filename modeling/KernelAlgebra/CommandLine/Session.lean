import KernelAlgebra.CommandLine.Arguments
import KernelAlgebra.CommandLine.Reading
import KernelAlgebra.Log
import KernelAlgebra.Pipeline.Load
import KernelAlgebra.Program.Listing
import KernelAlgebra.Report.Interface
import KernelAlgebra.Shader.Writer
import KernelAlgebra.Text.Cut

/-!
# Carrying out a command

A command prints, logs and may fail; what it wrote before it failed stays written.
-/

namespace KernelAlgebra.CommandLine

structure Console where
  env : Env := .start
  out : String := ""
  log : String := ""

structure Setting where
  files : Files
  logger : Logger
  composer : Composer

abbrev Session := ReaderT Setting (ExceptT Failure (StateM Console))

namespace Session

variable {α : Type}

def print (s : String) : Session Unit :=
  modify fun c => { c with out := c.out ++ s }

def note (level : LogLevel) (message : String) : Session Unit := do
  let l := (← read).logger
  modify fun c => { c with log := c.log ++ l.entry level message }

def ofExcept (x : Except Failure α) : Session α :=
  match x with
  | .ok a => return a
  | .error f => throw f

def report : Option String → Session Unit
  | some text => print text
  | none => throw (.crash "runtime error")

/-- Runs a build; the lines that it logs go to the log of the session, also when it fails. -/
def build (x : Pipeline.Build α) : Session α := do
  let c ← get
  let (r, env) := x.run.run c.env
  set { c with env := { env with log := [] } }
  env.log.forM (note .plain)
  ofExcept r

/-! ## Kernels -/

def inFile (path : String) (f : Failure) : Failure :=
  match f.context? with
  | some context => .other s!"{path}:\n{context}"
  | none => .within path f

def compile (path : String) : Session Program := do
  match (← read).files.read? path with
  | none => throw (.within "can't read kernel" (.other (Files.missingText path)))
  | some text =>
      let c ← get
      let (r, g) := Assembly.compileWithWarnings (Text.ofString text) c.env.supply
      set { c with env := { c.env with supply := g } }
      match r with
      | .error f => throw (inFile path f)
      | .ok l =>
          l.warnings.forM fun w => note .warning s!"{path}:{w.message}"
          return l.program

def retarget (p : Program) (target : String) : Session Program := do
  if target ≠ "" then
    note .debug s!"overriding target {Text.quoted p.target} with {Text.quoted target}"
  return Assembly.retarget p target

/-! ## Pipelines -/

def load (path : String) : Session Pipeline.PipelineFile := do
  ofExcept (Pipeline.PipelineFile.load (← read).files path)

def loadOnly (path name : String) : Session Pipeline.PipelineFile := do
  match (← load path).only? name with
  | some f => return f
  | none => throw (.other s!"no pipeline named {name} in {path}")

def buildFile (f : Pipeline.PipelineFile) : Session Pipeline.Built := do
  let b ← build (f.build (← read).composer)
  b.warnings.forM (note .warning)
  return b

def pipelineProgram (path name : String) : Session Program := do
  let b ← buildFile (← loadOnly path name)
  match b.pipelines.head? with
  | some (_, h) => build (Pipeline.Build.resolved h)
  | none => throw (.other s!"no pipeline named {name} in {path}")

/-! ## Vectors -/

/-- Numbers with commas between them; blanks around a number do not count. -/
def vector (text : String) : Except Failure (List Float) :=
  (Text.cut ',' text).mapM fun part =>
    let number := Text.trimmed part
    (Number.read number).mapError fun e =>
      .other s!"strconv.ParseFloat: parsing {Text.quoted number}: {e.message}"

def vectors (texts : List String) : Except Failure (List (List Float)) :=
  texts.zipIdx.mapM fun (text, i) => (vector text).mapError (.within s!"input {i}")

def override (text : String) : Except Failure (String × List Float) :=
  match Text.cutOnce? '=' text with
  | none => .error (.other s!"uniform {Text.quoted text} is not name=values")
  | some (name, values) =>
      ((vector values).mapError (.within s!"uniform {name}")).map fun v => (name, v)

def vectorText (xs : List Float) : String :=
  "(" ++ String.intercalate ", " (xs.map Number.text) ++ ")"

def runProgram (p : Program) (inputs : List (List Float)) (o : RunOptions) : Session Unit := do
  match p.run inputs o with
  | .error e => throw (.run e)
  | .ok r =>
      note .debug s!"visited {r.steps} nodes"
      (p.outputs.zip r.outputs).forM fun (s, xs) => print s!"{s.label} = {vectorText xs}\n"
      if r.killed then print "killed\n"

/-! ## Commands -/

def reportBindings (a : Arguments) : Session Unit := do
  let p ← retarget (← compile a.input) a.target
  let h ← build (Pipeline.Build.compose (Channels.plain p))
  report h.report?

/-- Of several values for one uniform the last one counts. -/
def runKernel (a : Arguments) : Session Unit := do
  let p ← compile a.input
  let inputs ← ofExcept (vectors a.inputs)
  let overrides ← ofExcept (a.uniforms.mapM override)
  runProgram p inputs { maxSteps := a.steps, overrides := overrides.reverse }

def emitShader (a : Arguments) : Session Unit := do
  let version ← ofExcept ((Shader.Version.parse a.lang).mapError fun e => .other e.message)
  let p ← if a.name = "" then compile a.input else pipelineProgram a.input a.name
  let p ← retarget p a.target
  let s ← ofExcept
    ((Shader.compile p.sketch { version := version, debugInfo := a.debugInfo }).mapError
      Shader.ShaderError.toFailure)
  s.uniformDefaults.forM fun (name, _) =>
    note .warning s!"uniform {name} has a value GLSL {version.text} cannot initialize"
  print s.source

def runPipeline (a : Arguments) : Session Unit := do
  if a.name = "" then throw (.other "--input needs --name")
  let inputs ← ofExcept (vectors a.inputs)
  runProgram (← pipelineProgram a.input a.name) inputs {}

def describePipelines (a : Arguments) : Session Unit := do
  let f ← if a.name = "" then load a.input else loadOnly a.input a.name
  let b ← buildFile f
  b.pipelines.forM fun (name, h) => do
    let source := (f.config.pipelines.lookup name).getD ""
    print s!"{name}: {source}\n"
    report h.sketch.report?

def perform (c : Command) (a : Arguments) : Session Unit := do
  match c with
  | .describe => report (← compile a.input).report?
  | .bindings => reportBindings a
  | .dump => print (← compile a.input).listing
  | .run => runKernel a
  | .glsl => emitShader a
  | .pipeline => if a.inputs.isEmpty then describePipelines a else runPipeline a
  if a.metrics then
    print (String.join ((← get).env.metrics.lines.map (· ++ "\n")))

end Session

structure Outcome where
  out : String
  log : String
  failure : Option Failure

def settingFor (files : Files) (a : Arguments) : Setting :=
  ⟨files, ⟨programName ++ ": ", a.debug⟩, { optimize := !a.noOptimize, debug := a.debug }⟩

def execute (files : Files) (words : List String) : Outcome :=
  match Request.ofWords words with
  | .help c => ⟨helpFor c, "", none⟩
  | .version => ⟨versionLine ++ "\n", "", none⟩
  | .refuse e => ⟨"", "", some (.within "cli parse error" (.other e.message))⟩
  | .perform c a =>
      match ((Session.perform c a).run (settingFor files a)).run.run {} with
      | (.ok (), console) => ⟨console.out, console.log, none⟩
      | (.error f, console) => ⟨console.out, console.log, some f⟩

def reads (files : Files) (words : List String) : List String :=
  match Request.ofWords words with
  | .perform c a =>
      let nested :=
        if c = .pipeline || (c = .glsl && a.name ≠ "") then
          match Pipeline.PipelineFile.load files a.input with
          | .ok f => f.kernelPaths
          | .error _ => []
        else []
      a.input :: nested
  | _ => []

end KernelAlgebra.CommandLine
