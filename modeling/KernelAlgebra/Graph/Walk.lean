import KernelAlgebra.Graph.Basic
import KernelAlgebra.Total

/-!
# Walking a graph from its entry

The walk is depth first and visits a node before its successors, the branches in order
before the follower.  Edges that lead outside the arena are ignored.
-/

namespace KernelAlgebra.Graph

/-- The successors of a node that exist. -/
def targets (g : Graph) (id : Nat) : List Nat :=
  match g.node? id with
  | some n => n.successors.filter (· < g.size)
  | none => []

/-- One more than the number of edges: the walk takes at most this many steps. -/
def walkBound (g : Graph) : Nat :=
  total (g.nodes.map fun n => n.successors.length) + 1

def walkFrom (g : Graph) : Nat → List Nat → List Nat → List Nat
  | 0, _, seen => seen
  | _ + 1, [], seen => seen
  | fuel + 1, id :: stack, seen =>
      if id ∈ seen then walkFrom g fuel stack seen
      else walkFrom g fuel (g.targets id ++ stack) (seen ++ [id])

/-- The reachable nodes in walk order. -/
def reachable (g : Graph) : List Nat :=
  if g.entry < g.size then walkFrom g g.walkBound [g.entry] [] else []

def reachableNodes (g : Graph) : List (Nat × Node) :=
  g.reachable.filterMap fun id => (g.node? id).map fun n => (id, n)

/-- Notes an edge from `id` in the list of its target, unless the list ends with `id`. -/
def noteEdge (id : Nat) (lists : List (List Nat)) (target : Nat) : List (List Nat) :=
  lists.modify target fun list => if list.getLast? = some id then list else list ++ [id]

/-- For every node the reachable nodes that have an edge to it, in walk order. -/
def predecessorLists (g : Graph) : List (List Nat) :=
  g.reachableNodes.foldl (fun lists p => p.2.successors.foldl (noteEdge p.1) lists)
    (List.replicate g.size [])

def predecessors (g : Graph) (id : Nat) : List Nat :=
  g.predecessorLists.getD id []

def instructionCount (g : Graph) : Nat :=
  total (g.reachableNodes.map fun p => p.2.block.length)

/-! ## Renumbering -/

/-- The nodes that survive compaction: the reachable ones, and the exit in any case. -/
def kept (g : Graph) : List Nat :=
  if g.exit ∈ g.reachable || g.size ≤ g.exit then g.reachable else g.reachable ++ [g.exit]

def newId (order : List Nat) (id : Nat) : Nat :=
  (order.idxOf? id).getD nowhere

/-- A node whose edges follow the renumbering `order`; an edge to a dropped node is cut. -/
def renumber (order : List Nat) (n : Node) : Node :=
  { n with
    branches := n.branches.map fun b => { b with target := newId order b.target },
    follower := n.follower.bind fun f => order.idxOf? f }

/-- Drops unreachable nodes and renumbers the others in walk order. -/
def compact (g : Graph) : Graph :=
  let order := g.kept
  { nodes := order.filterMap fun id => (g.node? id).map (renumber order),
    entry := newId order g.entry,
    exit := newId order g.exit }

def staysInside (g : Graph) (n : Node) : Bool :=
  n.successors.all (· < g.size)

/-- Entry, exit and every edge of a surviving node lead into the arena. -/
def isClosed (g : Graph) : Bool :=
  g.entry < g.size && g.exit < g.size &&
    g.kept.all fun id =>
      match g.node? id with
      | some n => g.staysInside n
      | none => false

/-! ## Renumbering that stops halfway

Branches are renumbered in place, node by node, before the nodes move.  An edge that leaves the
arena stops the renumbering and leaves everything else as it is by then.
-/

def renumberBranches (size : Nat) (order : List Nat) : List Branch → List Branch × Bool
  | [] => ([], true)
  | b :: rest =>
      if b.target < size then
        let (more, whole) := renumberBranches size order rest
        ({ b with target := newId order b.target } :: more, whole)
      else (b :: rest, false)

def renumberInPlace (order : List Nat) : List Nat → Graph → Graph × Bool
  | [], g => (g, true)
  | id :: rest, g =>
      match g.node? id with
      | none => (g, false)
      | some n =>
          if n.follower.any (g.size ≤ ·) then (g, false)
          else
            let (branches, whole) := renumberBranches g.size order n.branches
            let next := g.modify id fun m => { m with branches := branches }
            if whole then renumberInPlace order rest next else (next, false)

/-- What compaction leaves of a graph that is not closed. -/
def halfCompacted (g : Graph) : Graph :=
  let order := g.kept
  let (left, whole) := renumberInPlace order order g
  if whole then
    { g with
      nodes := g.compact.nodes,
      entry := if g.entry < g.size then g.compact.entry else g.entry }
  else left

end KernelAlgebra.Graph
