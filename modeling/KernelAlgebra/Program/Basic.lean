import KernelAlgebra.Graph.Walk

/-!
# Programs

A program is a graph together with the symbols it uses, listed by role.  The order of inputs
and outputs matters, because composition matches channels by position.  A symbol that is both
read and written at the boundary stands in both lists.  What a program says without its graph
is its interface.
-/

namespace KernelAlgebra

structure Interface where
  /-- Backend and stage, or the empty string when unknown. -/
  target : String
  inputs : List Symbol
  outputs : List Symbol
  temps : List Symbol
  constants : List Symbol
  uniforms : List Symbol
  textures : List Symbol
  diagnostics : List String
  deriving DecidableEq

structure Program extends Interface where
  graph : Graph
  deriving DecidableEq

/-- A program as somebody wrote it down; it may lack its graph. -/
structure Sketch extends Interface where
  graph? : Option Graph
  deriving DecidableEq

namespace Interface

def empty (target : String) : Interface :=
  ⟨target, [], [], [], [], [], [], []⟩

def withGraph (i : Interface) (g : Graph) : Program := { i with graph := g }

def symbols (i : Interface) : List Symbol :=
  i.inputs ++ i.outputs ++ i.temps ++ i.constants ++ i.uniforms ++ i.textures

def locals (i : Interface) : List Symbol :=
  dedup (i.inputs ++ i.outputs ++ i.temps)

def sharesLocals (i j : Interface) : Bool :=
  j.locals.any (i.locals.contains ·)

def resources (i : Interface) : List Symbol :=
  dedup (i.uniforms ++ i.textures)

def targetText (target : String) : String :=
  if target = "" then "<none>" else target

/-- All programs carry the same serial number. -/
def serial : String := "00000000-0000-4000-8000-000000000000"

def shortSerial : String := "00000000"

def summary (i : Interface) : String :=
  s!"program {shortSerial} ({i.inputs.length} inputs, {i.outputs.length} outputs, " ++
    s!"target {targetText i.target})"

def describe (i : Interface) : String :=
  let shown := dedup (i.inputs ++ i.outputs ++ i.uniforms ++ i.textures)
  i.summary ++ "\n" ++
    String.join (shown.map fun s => s!"  {s.describe}\n") ++
    String.join (i.diagnostics.map fun d => s!"  warning: {d}\n")

end Interface

def Sketch.program? (s : Sketch) : Option Program :=
  s.graph?.map s.toInterface.withGraph

namespace Program

def empty (target : String) : Program :=
  (Interface.empty target).withGraph Graph.initial

def sketch (p : Program) : Sketch :=
  { p.toInterface with graph? := some p.graph }

@[simp] theorem program?_sketch (p : Program) : p.sketch.program? = some p := rfl

/-! ## Copies -/

def copiedInstruction (i : Instruction) : Instruction :=
  { i with dst := i.dst.copied, src := i.src.map View.copied }

def copiedNode (n : Node) : Node :=
  { n with
    block := n.block.map copiedInstruction,
    branches := n.branches.map fun b => { b with cond := b.cond.copied } }

/-- A copy of the program with copied views.  Symbols are shared. -/
def copied (p : Program) : Program :=
  { p with graph := { p.graph with nodes := p.graph.nodes.map copiedNode } }

/-! ## The symbols that the code mentions -/

def conditionSymbol? (b : Branch) : Option Symbol :=
  if b.cond.isAbsent then none else some b.cond.sym

/-- Sources before the destination. -/
def instructionSymbols (i : Instruction) : List Symbol :=
  i.uses ++ i.defines.toList

def nodeSymbols (n : Node) : List Symbol :=
  n.block.flatMap instructionSymbols ++ n.branches.filterMap conditionSymbol?

/-- Every mention in reachable code, in walk order. -/
def mentions (p : Program) : List Symbol :=
  p.graph.reachableNodes.flatMap fun q => nodeSymbols q.2

def isCollectedTemp (p : Program) (s : Symbol) : Bool :=
  s.isLocal && !p.inputs.contains s && !p.outputs.contains s

/--
Rebuilds the temporaries from the code and adds the constants, uniforms and resources that
the code mentions and the lists lack.
-/
def collect (p : Program) : Program :=
  let used := p.mentions
  { p with
    temps := dedup (used.filter p.isCollectedTemp),
    constants := dedup (p.constants ++ used.filter (·.role = .const)),
    uniforms := dedup (p.uniforms ++ used.filter (·.role = .uniform)),
    textures := dedup (p.textures ++ used.filter (·.isResource)) }

@[simp] theorem inputs_collect (p : Program) : p.collect.inputs = p.inputs := rfl

@[simp] theorem outputs_collect (p : Program) : p.collect.outputs = p.outputs := rfl

@[simp] theorem graph_collect (p : Program) : p.collect.graph = p.graph := rfl

end Program

end KernelAlgebra
