import KernelAlgebra.Text.Pad

/-!
# Commands and options

Every command has options, and every option says what it sets and how the help explains it.
-/

namespace KernelAlgebra.CommandLine

inductive Command where
  | describe
  | bindings
  | dump
  | run
  | glsl
  | pipeline
  deriving DecidableEq, Repr

structure Arguments where
  debug : Bool := false
  noOptimize : Bool := false
  metrics : Bool := false
  /-- Written for the command as its only positional argument. -/
  input : String := ""
  target : String := ""
  name : String := ""
  lang : String := "330"
  raw : Bool := false
  debugInfo : Bool := false
  inputs : List String := []
  uniforms : List String := []
  steps : Int := 65536
  deriving DecidableEq, Repr

inductive Shape where
  | flag (set : Bool → Arguments → Arguments)
  | text (set : String → Arguments → Arguments)
  | integer (set : Int → Arguments → Arguments)
  /-- May be given many times; without a value it adds nothing. -/
  | many (add : String → Arguments → Arguments)

structure Opt where
  long : String
  short : Option String := none
  shape : Shape
  help : String
  fallback : Option String := none

def Opt.isNamed (o : Opt) (name : String) : Bool :=
  o.long = name || o.short = some name

/-! ## Options -/

def globalOptions : List Opt :=
  [{ long := "debug", shape := .flag fun b a => { a with debug := b },
     help := "verbose logging with caller annotations" },
   { long := "no-optimize", shape := .flag fun b a => { a with noOptimize := b },
     help := "skip optimization of composed programs" },
   { long := "metrics", shape := .flag fun b a => { a with metrics := b },
     help := "print composition counters on exit" }]

def targetOption (help : String) : Opt :=
  { long := "target", shape := .text fun s a => { a with target := s }, help := help }

def nameOption (help : String) : Opt :=
  { long := "name", shape := .text fun s a => { a with name := s }, help := help }

def inputOption (help : String) : Opt :=
  { long := "input", short := some "i",
    shape := .many fun s a => { a with inputs := a.inputs ++ [s] }, help := help }

namespace Command

def all : List Command := [describe, bindings, dump, run, glsl, pipeline]

def name : Command → String
  | describe => "describe"
  | bindings => "bindings"
  | dump => "dump"
  | run => "run"
  | glsl => "glsl"
  | pipeline => "pipeline"

def ofName? (name : String) : Option Command := all.find? (·.name = name)

def help : Command → String
  | describe => "print the interface of a kernel"
  | bindings => "print the backend attribute bindings of a kernel"
  | dump => "print the instruction graph of a kernel"
  | run => "evaluate a kernel on input vectors"
  | glsl => "emit GLSL for a kernel or a pipeline"
  | pipeline => "build the pipelines of a pipeline file"

def inputHelp : Command → String
  | glsl => "kernel assembly or pipeline file"
  | pipeline => "pipeline file (yaml or toml)"
  | describe | bindings | dump | run => "kernel assembly file"

def options : Command → List Opt
  | describe => []
  | bindings => [targetOption "bind for this target instead of the file's"]
  | dump =>
      [{ long := "raw", shape := .flag fun b a => { a with raw := b },
         help := "dump the Go structures instead of the listing" }]
  | run =>
      [inputOption "comma separated values of the next free input",
       { long := "uniform", short := some "u",
         shape := .many fun s a => { a with uniforms := a.uniforms ++ [s] },
         help := "name=values override of a uniform" },
       { long := "steps", shape := .integer fun n a => { a with steps := n },
         help := "bound on visited nodes, 0 for none", fallback := some "65536" }]
  | glsl =>
      [{ long := "lang", shape := .text fun s a => { a with lang := s },
         help := "GLSL version, e.g. 330, 430 or 300es", fallback := some "330" },
       targetOption "emit for this target instead of the file's",
       nameOption "treat the input as a pipeline file and emit this pipeline",
       { long := "debug-info", shape := .flag fun b a => { a with debugInfo := b },
         help := "annotate the output with node numbers" }]
  | pipeline =>
      [nameOption "only this pipeline",
       inputOption "run the pipeline on these values, needs --name"]

end Command

def optionsFor : Option Command → List Opt
  | some c => globalOptions ++ c.options
  | none => globalOptions

/-! ## Help texts -/

def programName : String := "kernelc"

def versionLine : String := s!"{programName} 0.1.0-dev"

def summaryLine : String := s!"{programName} compiles and composes stream kernels"

def helpColumn : Nat := 25

/-- Two columns; a left side that comes too close stands on a line of its own. -/
def helpLine (left right : String) : String :=
  let left := "  " ++ left
  if left.length + 2 < helpColumn then Text.padRight helpColumn left ++ right ++ "\n"
  else left ++ "\n" ++ Text.blanks helpColumn ++ right ++ "\n"

def Opt.withValue (o : Opt) (name : String) : String :=
  match o.shape with
  | .flag _ => name
  | .text _ | .integer _ | .many _ => name ++ " " ++ o.long.map Char.toUpper

def Opt.longText (o : Opt) : String := o.withValue ("--" ++ o.long)

def Opt.helpLine (o : Opt) : String :=
  let short := match o.short with
    | some s => ", " ++ o.withValue ("-" ++ s)
    | none => ""
  let fallback := match o.fallback with
    | some d => s!" [default: {d}]"
    | none => ""
  CommandLine.helpLine (o.longText ++ short) (o.help ++ fallback)

def optionUsage (os : List Opt) : String :=
  String.join (os.map fun o => s!" [{o.longText}]")

def globalLines : String :=
  String.join (globalOptions.map Opt.helpLine) ++
    helpLine "--help, -h" "display this help and exit" ++
    helpLine "--version" "display version and exit"

def rootHelp : String :=
  s!"Usage: {programName}{optionUsage globalOptions} <command> [<args>]\n" ++
    "\nOptions:\n" ++ globalLines ++
    "\nCommands:\n" ++ String.join (Command.all.map fun c => helpLine c.name c.help)

def Command.helpText (c : Command) : String :=
  s!"Usage: {programName} {c.name}{optionUsage c.options} INPUT\n" ++
    "\nPositional arguments:\n" ++ helpLine "INPUT" c.inputHelp ++
    (if c.options.isEmpty then ""
     else "\nOptions:\n" ++ String.join (c.options.map Opt.helpLine)) ++
    "\nGlobal options:\n" ++ globalLines

def helpFor (c : Option Command) : String :=
  summaryLine ++ "\n" ++ versionLine ++ "\n" ++
    match c with
    | some c => c.helpText
    | none => rootHelp

end KernelAlgebra.CommandLine
