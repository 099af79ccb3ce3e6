import KernelAlgebra.Instruction

/-!
# Control flow graphs

A graph is an arena of nodes with one entry and one exit.  A node runs its block, then takes
the first branch whose condition holds, and otherwise moves to its follower.  Nodes that
nothing reaches may linger in the arena.  Ids are 32-bit words, and an id may lead outside the
arena; the largest word, as long as it is no node's id, stands for no node at all.
-/

namespace KernelAlgebra

/-- An edge that is taken when the first element of the condition is greater than zero. -/
structure Branch where
  cond : View
  target : Nat
  deriving DecidableEq

structure Node where
  block : Block
  branches : List Branch
  follower : Option Nat
  deriving DecidableEq

structure Graph where
  nodes : List Node
  entry : Nat
  exit : Nat
  deriving DecidableEq

namespace Node

def empty : Node := ⟨[], [], none⟩

def straight (block : Block) (follower : Nat) : Node := ⟨block, [], some follower⟩

/-- The branch targets, then the follower. -/
def successors (n : Node) : List Nat :=
  n.branches.map Branch.target ++ n.follower.toList

end Node

namespace Graph

/-- The id that stands for no node. -/
def nowhere : Nat := 4294967295

/--
An id of an arena with `size` nodes after a move by `base`.  An id that leads outside wraps
around at the end of the words, and so may come to address a node.
-/
def moved (size base id : Nat) : Nat :=
  if id < size then id + base else (id + base) % (nowhere + 1)

theorem moved_of_lt {size id : Nat} (base : Nat) (h : id < size) :
    moved size base id = id + base := by
  simp [moved, h]

def follower? (size id : Nat) : Option Nat :=
  if id < size then some id else if id = nowhere then none else some id

theorem follower?_of_lt {size id : Nat} (h : id < size) : follower? size id = some id := by
  simp [follower?, h]

def initial : Graph := ⟨[Node.straight [] 1, Node.empty], 0, 1⟩

def size (g : Graph) : Nat := g.nodes.length

def node? (g : Graph) (id : Nat) : Option Node := g.nodes[id]?

/-- Changes one node; an id outside the arena leaves everything as it is. -/
def modify (g : Graph) (id : Nat) (f : Node → Node) : Graph :=
  { g with nodes := g.nodes.modify id f }

@[simp] theorem size_modify (g : Graph) (id : Nat) (f : Node → Node) :
    (g.modify id f).size = g.size := by
  simp [modify, size]

@[simp] theorem entry_modify (g : Graph) (id : Nat) (f : Node → Node) :
    (g.modify id f).entry = g.entry := rfl

@[simp] theorem exit_modify (g : Graph) (id : Nat) (f : Node → Node) :
    (g.modify id f).exit = g.exit := rfl

def setFollower (g : Graph) (id : Nat) (follower : Option Nat) : Graph :=
  g.modify id fun n => { n with follower := follower }

def setBlock (g : Graph) (id : Nat) (block : Block) : Graph :=
  g.modify id fun n => { n with block := block }

def newNode (g : Graph) : Graph × Nat :=
  ({ g with nodes := g.nodes ++ [Node.empty] }, g.size)

def shift (size base : Nat) (n : Node) : Node :=
  { n with
    branches := n.branches.map fun b => { b with target := moved size base b.target },
    follower := n.follower.bind fun f => follower? (base + size) (moved size base f) }

/-- Takes over the nodes of another graph; its ids move by the size of this arena. -/
def absorb (g sub : Graph) : Graph :=
  { g with nodes := g.nodes ++ sub.nodes.map (shift sub.size g.size) }

def entryIn (sub g : Graph) : Nat := moved sub.size g.size sub.entry

def exitIn (sub g : Graph) : Nat := moved sub.size g.size sub.exit

/-- Links the exit to the entry of another graph, whose exit becomes the exit. -/
def append (g sub : Graph) : Graph :=
  { (g.absorb sub).setFollower g.exit (follower? (g.size + sub.size) (sub.entryIn g)) with
    exit := sub.exitIn g }

def prependEntry (g : Graph) : Graph :=
  { g with nodes := g.nodes ++ [⟨[], [], follower? g.size g.entry⟩], entry := g.size }

def appendExit (g : Graph) : Graph :=
  { (g.newNode.1).setFollower g.exit (some g.size) with exit := g.size }

/--
Splices another graph between a node and its successors: the node falls through to the
entry of the spliced graph, and its edges move to the exit.
-/
def insertAfter (g : Graph) (id : Nat) (sub : Graph) : Graph :=
  match g.node? id with
  | none => g
  | some n =>
      let spliced := (g.absorb sub).modify (sub.exitIn g) fun x =>
        { x with branches := n.branches, follower := n.follower }
      let linked := spliced.modify id fun m =>
        { m with branches := [], follower := follower? (g.size + sub.size) (sub.entryIn g) }
      { linked with exit := if id = g.exit then sub.exitIn g else g.exit }

/--
Moves the instructions from `index` on into a new node, which takes over the edges.
-/
def splitAt (g : Graph) (id index : Nat) : Graph :=
  match g.node? id with
  | none => g
  | some n =>
      let tail : Node := { n with block := n.block.drop index }
      let grown : Graph := { g with nodes := g.nodes ++ [tail] }
      let cut := grown.modify id fun m => Node.straight (m.block.take index) g.size
      { cut with exit := if id = g.exit then g.size else g.exit }

end Graph

end KernelAlgebra
