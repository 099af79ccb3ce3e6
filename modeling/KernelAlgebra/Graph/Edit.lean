import KernelAlgebra.Graph.Walk

/-!
# Edits of a graph by hand, on ids that nobody has checked

An edit that addresses a node or an index outside the graph is refused.  An edit that meets an
id outside the arena on its way stops there and leaves the graph as it is by then.
-/

namespace KernelAlgebra

inductive GraphFault where
  | noSuchNode (id count : Nat)
  | badSplit (index : Int) (id count : Nat)
  | badInstruction (index : Int) (id count : Nat)
  | selfAbsorption
  /-- An edge, the entry or the exit leads outside the arena. -/
  | dangling
  deriving DecidableEq, Repr

def GraphFault.message : GraphFault → String
  | .noSuchNode id count => s!"ir: node handle {id} out of range ({count} nodes)"
  | .badSplit index id count =>
      s!"ir: split index {index} out of range for node {id} ({count} instructions)"
  | .badInstruction index id count =>
      s!"ir: instruction {index} out of range in node {id} ({count} instructions)"
  | .selfAbsorption => "ir: cannot absorb a CFG into itself"
  | .dangling => "runtime error"

namespace Graph

def node (g : Graph) (id : Nat) : Except GraphFault Node :=
  match g.node? id with
  | some n => .ok n
  | none => .error (.noSuchNode id g.size)

def tryAppend (g sub : Graph) : Except GraphFault Graph :=
  if g.exit < (g.absorb sub).size then .ok (g.append sub) else .error .dangling

def tryAppendExit (g : Graph) : Except GraphFault Graph :=
  if g.exit < g.newNode.1.size then .ok g.appendExit else .error .dangling

def trySplit (g : Graph) (id : Nat) (index : Int) : Except GraphFault Graph :=
  match g.node id with
  | .error e => .error e
  | .ok n =>
      if index < 0 || (n.block.length : Int) < index then
        .error (.badSplit index id n.block.length)
      else .ok (g.splitAt id index.toNat)

def trySplice (g : Graph) (id : Nat) (sub : Graph) : Except GraphFault Graph :=
  if sub.exitIn g < (g.absorb sub).size then .ok (g.insertAfter id sub) else .error .dangling

def tryCompact (g : Graph) : Except GraphFault Graph :=
  if g.isClosed then .ok g.compact else .error .dangling

end Graph

/-- A sequence of edits; a fault keeps the graph that it was reached with. -/
abbrev Edit := ExceptT GraphFault (StateM Graph)

namespace Edit

def attempt (r : Except GraphFault Graph) (left : Graph) : Edit Unit := do
  match r with
  | .ok g => set g
  | .error f =>
      set left
      throw f

def node (id : Nat) : Edit Node := do
  match (← get).node id with
  | .ok n => return n
  | .error f => throw f

def newNode : Edit Nat := do
  let g ← get
  set g.newNode.1
  return g.size

def prependEntry : Edit Nat := do
  let g ← get
  set g.prependEntry
  return g.size

def appendExit : Edit Nat := do
  let g ← get
  attempt g.tryAppendExit g.newNode.1
  return g.size

def split (id : Nat) (index : Int) : Edit Nat := do
  let g ← get
  attempt (g.trySplit id index) g
  return g.size

def append (sub : Graph) : Edit Nat := do
  let g ← get
  attempt (g.tryAppend sub) (g.absorb sub)
  return (← get).exit

def insertAfter (id : Nat) (sub : Graph) : Edit (Nat × Nat) := do
  let g ← get
  let _ ← node id
  attempt (g.trySplice id sub) (g.absorb sub)
  return (sub.entryIn g, sub.exitIn g)

def setFollower (id : Nat) (follower : Option Nat) : Edit Unit := do
  let _ ← node id
  modify fun g => g.setFollower id follower

def compact : Edit Nat := do
  let g ← get
  attempt g.tryCompact g.halfCompacted
  return (← get).size

end Edit

end KernelAlgebra
