import KernelAlgebra.Graph.Walk

/-!
# Merging nodes that are linked by a single unconditional edge
-/

namespace KernelAlgebra.Straighten

structure Progress where
  graph : Graph
  merged : Nat

/-- Appends the block of `next` to the one of `id`, which takes over its edges. -/
def merge (g : Graph) (id next : Nat) (b : Node) : Graph :=
  let taken := g.modify id fun a =>
    { block := a.block ++ b.block, branches := b.branches, follower := b.follower }
  let emptied := taken.modify next fun _ => Node.empty
  { emptied with exit := if next = g.exit then id else g.exit }

/-- The node that can be merged into `id`: the only way into it leads from there. -/
def mergeable? (single : Nat → Bool) (g : Graph) (id : Nat) : Option (Nat × Node) :=
  match g.node? id with
  | some ⟨_, [], some next⟩ =>
      if next = id || next = g.entry || !single next then none
      else (g.node? next).map fun b => (next, b)
  | _ => none

def mergeChain (single : Nat → Bool) (id : Nat) : Nat → Progress → Progress
  | 0, s => s
  | fuel + 1, s =>
      match mergeable? single s.graph id with
      | some (next, b) => mergeChain single id fuel ⟨merge s.graph id next b, s.merged + 1⟩
      | none => s

/-- One pass over the reachable nodes, with the edges counted when it starts. -/
def pass (g : Graph) : Progress :=
  let single := fun id => (g.predecessors id).length == 1
  g.reachable.foldl (fun s id => mergeChain single id g.size s) ⟨g, 0⟩

def passes : Nat → Progress → Progress
  | 0, s => s
  | fuel + 1, s =>
      let next := pass s.graph
      if next.merged = 0 then s else passes fuel ⟨next.graph, s.merged + next.merged⟩

/-- Passes until nothing can be merged; every merge empties a reachable node. -/
def run (g : Graph) : Progress :=
  passes (g.size + 1) ⟨g, 0⟩

end KernelAlgebra.Straighten
