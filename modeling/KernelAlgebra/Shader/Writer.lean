import KernelAlgebra.Shader.Expression
import KernelAlgebra.Shader.Namer

/-!
# Shaders in the OpenGL Shading Language

A shader declares the constants and the interface of a program and runs its graph in the
main function.  A graph without branches is written as a sequence; any other becomes a loop
over a switch with one case per node.
-/

namespace KernelAlgebra

namespace Shader

structure Options where
  version : Version := .standard
  /-- Adds the serial number of the program and the ids of its nodes as comments. -/
  debugInfo : Bool := false
  highPrecision : Bool := true
  deriving DecidableEq, Repr

structure Output where
  source : String
  attributes : List Attribute
  /-- Values that the host has to upload because the language has no initializers for them. -/
  uniformDefaults : List (String × List Float)
  /-- Whether the graph was written as a sequence. -/
  structured : Bool

abbrev Lines := List String

def indented (lines : Lines) : Lines := lines.map ("    " ++ ·)

/-! ## What the language cannot say -/

def checkSymbol (v : Version) (s : Symbol) : Except ShaderError Unit :=
  if s.isHole then .error .crash
  else if s.role = .texture then .ok ()
  else if s.scalar != .float32 && s.scalar != .float16 then .error (.scalarType s)
  else if 4 < s.size then .error (.tooWide s)
  else if s.role = .stream && !v.supportsStorage then .error (.noStorage s v)
  else .ok ()

def checkSymbols (v : Version) (i : Interface) : Except ShaderError Unit :=
  i.symbols.forM (checkSymbol v)

/-- The number of coordinates that every texture is sampled with. -/
abbrev Samplers := List (Symbol × Nat)

def addSampler (v : Version) (m : Samplers) (i : Instruction) : Except ShaderError Samplers :=
  match i.op, i.src with
  | .tex, [t, coord] =>
      let n := coord.size
      let refuse := fun (e : ShaderError) => .error (if t.isAbsent then .crash else e)
      if 3 < n then refuse (.coordinateCount t.sym n)
      else if n = 1 && v.es then refuse (.oneDimensional t.sym)
      else
        match m.lookup t.sym with
        | some k => if k = n then .ok m else refuse (.mixedCoordinates t.sym k n)
        | none => .ok ((t.sym, n) :: m)
  | _, _ => .ok m

def samplers (v : Version) (p : Program) : Except ShaderError Samplers :=
  (p.graph.reachableNodes.flatMap fun q => q.2.block).foldlM (addSampler v) []

/-! ## Names -/

def localBase (s : Symbol) : String :=
  if s.name != "" then Text.lowerCamelCase s.name
  else
    match s.role with
    | .const => "k"
    | .temp => "t"
    | r => r.name

def resourceNames (attrs : List Attribute) : Names :=
  (attrs.filter (·.direction = .resource)).reverse.map fun a => (a.sym, a.identifier)

def reserved (attrs : List Attribute) : Namer :=
  ⟨(attrs.filter fun a => !a.isBuiltin).map Attribute.identifier, 0⟩

def nameAll (names : Names) (n : Namer) : List Symbol → Names × Namer
  | [] => (names, n)
  | s :: rest =>
      if (names.lookup s).isSome then nameAll names n rest
      else
        let (name, n) := n.fresh (localBase s)
        nameAll ((s, name) :: names) n rest

/-- Interface names come from the attributes and are taken first. -/
def namesFor (p : Program) (attrs : List Attribute) : Names × Namer :=
  nameAll (resourceNames attrs) (reserved attrs)
    (p.inputs ++ p.outputs ++ p.temps ++ p.constants)

/-! ## Declarations -/

def directive (t : Target) (o : Options) : Lines :=
  [s!"#version {o.version.text}"] ++
    (if o.debugInfo then [s!"// program {Interface.serial}, target {t.text}"] else []) ++ [""]

def stageLayout (t : Target) (v : Version) : Except ShaderError Lines :=
  if t.stage != .compute then .ok []
  else if !v.supportsCompute then .error (.computeVersion v)
  else .ok ["layout(local_size_x = 1) in;", ""]

def precisionLines (o : Options) : Lines :=
  if !o.version.es then []
  else
    let precision := if o.highPrecision then "highp" else "mediump"
    (["float", "int", "sampler2D", "sampler3D"].map fun ty => s!"precision {precision} {ty};") ++
      [""]

def constantLines (names : Names) (constants : List Symbol) : Lines :=
  if constants.isEmpty then []
  else
    (constants.map fun s =>
      s!"const {typeName s.size} {names.of s} = {literal s.value s.size};") ++ [""]

def streamLines (a : Attribute) : Lines :=
  [a.decoration ++ " " ++ Text.camelCase a.identifier ++ "Block \x7b",
   s!"    {typeName a.sym.size} {a.identifier}[];",
   "\x7d;"]

def resourceLines (v : Version) (m : Samplers) (a : Attribute) : Lines :=
  let s := a.sym
  let qualifier := if v.supportsResourceLayouts then a.decoration else "uniform"
  match s.role with
  | .texture => [s!"{qualifier} sampler{(m.lookup s).getD 2}D {a.identifier};"]
  | .stream => streamLines a
  | _ =>
      let declaration := s!"{qualifier} {typeName s.size} {a.identifier}"
      if s.hasValue && !v.es then [s!"{declaration} = {literal s.value s.size};"]
      else [s!"{declaration};"]

def attributeLines (v : Version) (m : Samplers) (a : Attribute) : Lines :=
  if a.isBuiltin then []
  else
    match a.direction with
    | .resource => resourceLines v m a
    | dir =>
        let qualifier := if v.supportsStageLocations then a.decoration else dir.name
        [s!"{qualifier} {typeName a.sym.size} {a.identifier};"]

def interfaceLines (v : Version) (m : Samplers) (attrs : List Attribute) : Lines :=
  let lines := attrs.flatMap (attributeLines v m)
  if lines.isEmpty then [] else lines ++ [""]

/-- The default of a uniform that cannot be initialized in the shader. -/
def uniformDefault? (v : Version) (a : Attribute) : Option (String × List Float) :=
  if v.es && a.direction = .resource && !a.sym.isResource && a.sym.hasValue then
    some (a.identifier, a.sym.value)
  else none

/-- One default per name; the last one counts. -/
def uniformDefaults (v : Version) (attrs : List Attribute) : List (String × List Float) :=
  (attrs.filterMap (uniformDefault? v)).foldl
    (fun m d => m.filter (·.1 != d.1) ++ [d]) []

/-! ## The main function -/

/-- What an input is initialized from; the position builtin is cut down to size. -/
def inputExpr (a : Attribute) : String :=
  let n := a.sym.size
  if !a.isBuiltin || n = 4 then a.identifier else s!"{a.identifier}.{letters n}"

/-- What an output is assigned; the position builtin is padded to four elements. -/
def outputExpr (names : Names) (a : Attribute) : String :=
  let name := names.of a.sym
  let n := a.sym.size
  if !a.isBuiltin || n = 4 then name
  else
    "vec4(" ++
      String.intercalate ", " ([name] ++ List.replicate (3 - n) "0.0" ++ ["1.0"]) ++ ")"

/-- The attribute that an input is read from; the last one counts. -/
def inputAttribute? (attrs : List Attribute) (s : Symbol) : Option Attribute :=
  attrs.reverse.find? fun a => a.direction = .input && a.sym = s

def localLine (names : Names) (attrs : List Attribute) (s : Symbol) : Except ShaderError String :=
  let line := fun start => s!"{typeName s.size} {names.of s} = {start};"
  match inputAttribute? attrs s with
  | some a => if a.isBuiltin && 4 < s.size then .error .crash else .ok (line (inputExpr a))
  | none => .ok (line (zero s.size))

def outputLines (names : Names) (attrs : List Attribute) : Lines :=
  (attrs.filter (·.direction = .output)).map fun a =>
    s!"{a.identifier} = {outputExpr names a};"

structure Style where
  names : Names
  stage : Stage
  debugInfo : Bool

def blockLines (st : Style) (id : Nat) (block : Block) : Except ShaderError Lines := do
  let statements ← block.mapM (statement st.names st.stage)
  return (if st.debugInfo && !block.isEmpty then [s!"// node {id}"] else []) ++ statements.flatten

/-- The blocks from `id` on along the followers, until a node comes again. -/
def chainLines (st : Style) (g : Graph) : Nat → List Nat → Option Nat → Except ShaderError Lines
  | 0, _, _ => .ok []
  | _ + 1, _, none => .ok []
  | fuel + 1, seen, some id =>
      if id = Graph.nowhere || id ∈ seen then .ok []
      else
        match g.node id with
        | .error f => .error (.fault f)
        | .ok n => do
            let here ← blockLines st id n.block
            let rest ← chainLines st g fuel (id :: seen) n.follower
            return here ++ rest

def sequenceLines (st : Style) (g : Graph) : Except ShaderError Lines :=
  chainLines st g (g.size + 1) [] (some g.entry)

def branchLines (st : Style) (counter : String) (b : Branch) : Except ShaderError Lines := do
  let e ← conditionExpr st.names b.cond
  return [s!"if ({e} > 0.0) " ++ "\x7b", s!"    {counter} = {b.target};", "    break;", "\x7d"]

def caseLines (st : Style) (counter : String) (id : Nat) (n : Node) :
    Except ShaderError Lines := do
  let block ← blockLines st id n.block
  let branches ← n.branches.mapM (branchLines st counter)
  let next := match n.follower with
    | some f => toString f
    | none => "-1"
  return s!"case {id}:" ::
    indented (block ++ branches.flatten ++ [s!"{counter} = {next};", "break;"])

def switchLines (st : Style) (counter : String) (g : Graph) : Except ShaderError Lines := do
  let cases ← g.reachableNodes.mapM fun q => caseLines st counter q.1 q.2
  return [s!"int {counter} = {g.entry};", s!"while ({counter} >= 0) " ++ "\x7b"] ++
    indented ([s!"switch ({counter}) " ++ "\x7b"] ++ cases.flatten ++
      ["default:", s!"    {counter} = -1;", "    break;", "\x7d"]) ++
    ["\x7d"]

/-- A reachable branch keeps the graph from being a sequence. -/
def isSequence (g : Graph) : Bool :=
  g.reachableNodes.all fun q => q.2.branches.isEmpty

def graphLines (st : Style) (n : Namer) (g : Graph) : Except ShaderError Lines :=
  if isSequence g then sequenceLines st g else switchLines st (n.fresh "node").1 g

def mainLines (p : Program) (attrs : List Attribute) (st : Style) (n : Namer) :
    Except ShaderError Lines := do
  let locals ← p.locals.mapM (localLine st.names attrs)
  let body ← graphLines st n p.graph
  return ["void main() \x7b"] ++
    indented (locals ++ body ++ outputLines st.names attrs) ++ ["\x7d"]

/-! ## Whole shaders -/

def ShaderError.ofAttributes : Fault AttributeError → ShaderError
  | .error e => .interface e
  | .crash _ => .crash

def emit (p : Program) (t : Target) (o : Options) : Except ShaderError Output := do
  let m ← samplers o.version p
  let attrs ← p.attributes.mapError .ofAttributes
  let layout ← stageLayout t o.version
  let (names, n) := namesFor p attrs
  let main ← mainLines p attrs ⟨names, t.stage, o.debugInfo⟩ n
  let lines := directive t o ++ layout ++ precisionLines o ++
    constantLines names p.constants ++ interfaceLines o.version m attrs ++ main
  return {
    source := String.join (lines.map (· ++ "\n")),
    attributes := attrs,
    uniformDefaults := uniformDefaults o.version attrs,
    structured := isSequence p.graph }

/-- The options with a version; major version zero stands for the standard one. -/
def Options.filled (o : Options) : Options :=
  if o.version.major = 0 then { o with version := .standard } else o

def compile (s : Sketch) (o : Options) : Except ShaderError Output :=
  match Target.parse s.target with
  | .error e => .error (.interface (.target e))
  | .ok t =>
      if t.backend != .glsl then .error (.otherBackend t)
      else
        match checkSymbols o.filled.version s.toInterface, s.program? with
        | .error e, _ => .error e
        | .ok (), none => .error .crash
        | .ok (), some p => emit p t o.filled

end Shader

end KernelAlgebra
