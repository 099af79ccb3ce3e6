import KernelAlgebra.Error
import KernelAlgebra.Program.Basic

/-!
# The contract that a finished program offers

Role lists are free of repeats and hold symbols of fitting roles; every edge stays in the
arena, the exit is reachable and final, and every other reachable node has a follower; every
reachable instruction fits its opcode, mentions only declared symbols and writes nothing
that is read-only.  The lists have no holes.
-/

namespace KernelAlgebra

inductive Violation where
  | missingSymbol (list : String) (index : Nat)
  | repeatedSymbol (list : String) (sym : Symbol)
  | wrongRole (list : String) (index : Nat) (sym : Symbol)
  | inoutNotOutput (sym : Symbol)
  | inoutNotInput (sym : Symbol)
  | tempInInterface (sym : Symbol)
  | entryOutside (id count : Nat)
  | exitOutside (id count : Nat)
  | followerOutside (id : Nat)
  | targetOutside (branch id : Nat)
  | exitHasSuccessors
  | noFollower
  | exitUnreachable
  | operand (e : OperandError)
  | readOnly (sym : Symbol)
  | undeclared (sym : Symbol)
  | noCondition (branch : Nat)
  | condition (branch : Nat) (e : OperandError)

structure Issue where
  node : Option Nat
  instruction : Option Nat
  violation : Violation

def Violation.message : Violation → String
  | missingSymbol list i => s!"{list}[{i}] is nil"
  | repeatedSymbol list s => s!"{list} lists {s.label} more than once"
  | wrongRole list i s => s!"{list}[{i}]: {s.describe} does not belong in {list}"
  | inoutNotOutput s => s!"inout {s.label} is listed as an input but not as an output"
  | inoutNotInput s => s!"inout {s.label} is listed as an output but not as an input"
  | tempInInterface s => s!"temp {s.label} is also part of the interface"
  | entryOutside id n => s!"entry node {id} out of range ({n} nodes)"
  | exitOutside id n => s!"exit node {id} out of range ({n} nodes)"
  | followerOutside id => s!"follower {id} out of range"
  | targetOutside j id => s!"branch {j} target {id} out of range"
  | exitHasSuccessors => "exit node has successors"
  | noFollower => "node has no follower"
  | exitUnreachable => "exit node is not reachable from the entry"
  | operand e => e.toError.message
  | readOnly s => s!"writes read-only {s.describe}"
  | undeclared s => s!"{s.describe} is not declared by the program"
  | noCondition j => s!"branch {j} has no condition"
  | condition j e => s!"branch {j}: {e.toError.message}"

def Issue.message (i : Issue) : String :=
  match i.node, i.instruction with
  | some n, some k => s!"in node {n}, instruction {k}: {i.violation.message}"
  | some n, none => s!"in node {n}: {i.violation.message}"
  | none, _ => i.violation.message

namespace Validation

def general (v : Violation) : Issue := ⟨none, none, v⟩

def atNode (id : Nat) (v : Violation) : Issue := ⟨some id, none, v⟩

/-! ## Lists -/

def listIssues (name : String) (roles : List Role) (seen : List Symbol) :
    Nat → List Symbol → List Issue
  | _, [] => []
  | i, s :: rest =>
      if s.isHole then
        general (.missingSymbol name i) :: listIssues name roles seen (i + 1) rest
      else if s ∈ seen then
        general (.repeatedSymbol name s) :: listIssues name roles seen (i + 1) rest
      else
        (if s.role ∈ roles then [] else [general (.wrongRole name i s)]) ++
          listIssues name roles (s :: seen) (i + 1) rest

/-- The symbols of both directions that one list has and the other one lacks. -/
def inoutIssues (make : Symbol → Violation) (here there : List Symbol) : List Issue :=
  (here.filter fun s => !s.isHole && s.isInOut && !there.contains s).map fun s =>
    general (make s)

def tempIssues (l : Interface) : List Issue :=
  (l.temps.filter fun s => l.inputs.contains s || l.outputs.contains s).map fun s =>
    general (.tempInInterface s)

def interfaceIssues (l : Interface) : List Issue :=
  listIssues "inputs" [.input, .inout] [] 0 l.inputs ++
    listIssues "outputs" [.output, .inout] [] 0 l.outputs ++
    listIssues "temps" [.temp, .input, .output, .inout] [] 0 l.temps ++
    listIssues "constants" [.const] [] 0 l.constants ++
    listIssues "uniforms" [.uniform] [] 0 l.uniforms ++
    listIssues "textures" [.texture, .stream] [] 0 l.textures ++
    inoutIssues .inoutNotOutput l.inputs l.outputs ++
    inoutIssues .inoutNotInput l.outputs l.inputs ++
    tempIssues l

/-! ## The graph -/

def edgeIssues (count id : Nat) (n : Node) : List Issue :=
  (match n.follower with
   | some f => if count ≤ f then [atNode id (.followerOutside f)] else []
   | none => []) ++
    n.branches.zipIdx.filterMap fun q =>
      if count ≤ q.1.target then some (atNode id (.targetOutside q.2 q.1.target)) else none

/-- Edges that leave the arena; with one of these the graph is not walked. -/
def arenaIssues (g : Graph) : List Issue :=
  if g.size ≤ g.entry then [general (.entryOutside g.entry g.size)]
  else if g.size ≤ g.exit then [general (.exitOutside g.exit g.size)]
  else g.nodes.zipIdx.flatMap fun q => edgeIssues g.size q.2 q.1

def flowIssues (g : Graph) : List Issue :=
  (match g.node? g.exit with
   | some n => if n.successors.isEmpty then [] else [atNode g.exit .exitHasSuccessors]
   | none => []) ++
    (g.reachableNodes.filterMap fun q =>
      if q.1 ≠ g.exit && q.2.follower.isNone then some (atNode q.1 .noFollower) else none) ++
    (if g.exit ∈ g.reachable then [] else [general .exitUnreachable])

/-! ## The code -/

def undeclaredIssue (declared : List Symbol) (place : Violation → Issue) (s : Symbol) :
    List Issue :=
  if s ∈ declared then [] else [place (.undeclared s)]

def instructionIssues (declared : List Symbol) (id index : Nat) (i : Instruction) : List Issue :=
  let here := fun v => (⟨some id, some index, v⟩ : Issue)
  match i.check with
  | .error e => [here (.operand e)]
  | .ok () =>
      (match i.defines with
       | some s =>
           undeclaredIssue declared here s ++
             (if s.role.isReadOnly then [here (.readOnly s)] else [])
       | none => []) ++
        i.uses.flatMap (undeclaredIssue declared here)

def branchIssues (declared : List Symbol) (id index : Nat) (b : Branch) : List Issue :=
  if b.cond.isAbsent then [atNode id (.noCondition index)]
  else
    (match b.cond.check false with
     | .error e => [atNode id (.condition index e)]
     | .ok () => []) ++
      undeclaredIssue declared (atNode id) b.cond.sym

def nodeIssues (declared : List Symbol) (id : Nat) (n : Node) : List Issue :=
  (n.block.zipIdx.flatMap fun q => instructionIssues declared id q.2 q.1) ++
    n.branches.zipIdx.flatMap fun q => branchIssues declared id q.2 q.1

def codeIssues (declared : List Symbol) (g : Graph) : List Issue :=
  g.reachableNodes.flatMap fun q => nodeIssues declared q.1 q.2

end Validation

namespace Program

/-- All issues: lists first, then the graph, then the code if the graph can be walked. -/
def issues (p : Program) : List Issue :=
  Validation.interfaceIssues p.toInterface ++
    match Validation.arenaIssues p.graph with
    | [] => Validation.flowIssues p.graph ++ Validation.codeIssues p.symbols p.graph
    | broken => broken

end Program

end KernelAlgebra
