import KernelAlgebra.Graph.Edit
import KernelAlgebra.Optimizer.DeadCode
import KernelAlgebra.Optimizer.Straighten

/-!
# The optimizer

The optimizer removes dead code, straightens the graph and renumbers what is left.
-/

namespace KernelAlgebra

structure OptimizeOptions where
  deadCode : Bool := true
  straighten : Bool := true
  deriving DecidableEq, Repr

structure OptimizeStats where
  removedInstructions : Nat
  mergedNodes : Nat
  droppedNodes : Nat
  deriving DecidableEq, Repr

namespace Program

def withoutDeadCode (p : Program) (o : OptimizeOptions) : Program :=
  if o.deadCode then DeadCode.eliminate p else p

def straightened (g : Graph) (o : OptimizeOptions) : Straighten.Progress :=
  if o.straighten then Straighten.run g else ⟨g, 0⟩

def optimize (p : Program) (o : OptimizeOptions) : Program × OptimizeStats :=
  let q := p.withoutDeadCode o
  let s := straightened q.graph o
  let g := s.graph.compact
  (({ q with graph := g } : Program).collect,
   { removedInstructions := p.graph.instructionCount - q.graph.instructionCount,
     mergedNodes := s.merged,
     droppedNodes := s.graph.size - g.size })

/-! ## Graphs that nobody has checked -/

/-- Looking for dead code follows every edge of the reachable nodes. -/
def tryEliminate (p : Program) : Except GraphFault Program :=
  if p.graph.reachableNodes.all fun q => p.graph.staysInside q.2 then .ok (DeadCode.eliminate p)
  else .error .dangling

/-- Straightening follows the edges out of reachable nodes without branches. -/
def tryStraighten (g : Graph) : Except GraphFault Straighten.Progress :=
  if g.reachableNodes.all fun q => !q.2.branches.isEmpty || g.staysInside q.2 then
    .ok (Straighten.run g)
  else .error .dangling

/-- Renumbering follows every edge that is left. -/
def tryOptimize (p : Program) (o : OptimizeOptions) : Except GraphFault (Program × OptimizeStats) :=
  if p.graph.isClosed then .ok (p.optimize o) else .error .dangling

end Program

end KernelAlgebra
