import KernelAlgebra.Number.Layout
import KernelAlgebra.Program.Basic
import KernelAlgebra.Text.Pad

/-!
# Listings of programs

A listing shows the symbols, then every reachable node with its edges.
-/

namespace KernelAlgebra.Program

def numbersText (xs : List Float) : String :=
  "[" ++ String.intercalate " " (xs.map Number.text) ++ "]"

def symbolLine (role : String) (index : Nat) (s : Symbol) : String :=
  s!"  {Text.padRight 8 role} {Text.padLeft 2 (toString index)}  {s.describe}" ++
    (if s.hasValue then s!" = {numbersText s.value}" else "") ++ "\n"

def symbolLines (role : String) (list : List Symbol) : String :=
  String.join (list.zipIdx.map fun q => symbolLine role q.2 q.1)

def nodeLabel (g : Graph) (id : Nat) : String :=
  if id = g.entry then " (entry)" else if id = g.exit then " (exit)" else ""

def nodeLines (g : Graph) (id : Nat) (n : Node) : String :=
  s!"node {id}{nodeLabel g id}:\n" ++
    String.join (n.block.map fun i => s!"  {i.text}\n") ++
    String.join (n.branches.map fun b => s!"  if {b.cond.text} -> {b.target}\n") ++
    (match n.follower with
     | some f => s!"  -> {f}\n"
     | none => "")

def listing (p : Program) : String :=
  s!"program {Interface.serial} target {Interface.targetText p.target}\n" ++
    symbolLines "input" p.inputs ++
    symbolLines "output" p.outputs ++
    symbolLines "temp" p.temps ++
    symbolLines "const" p.constants ++
    symbolLines "uniform" p.uniforms ++
    symbolLines "resource" p.textures ++
    String.join (p.graph.reachableNodes.map fun q => nodeLines p.graph q.1 q.2) ++
    String.join (p.diagnostics.map fun d => s!"# warning: {d}\n")

end KernelAlgebra.Program
