import KernelAlgebra.Program.Basic

/-!
# Removing instructions whose results nobody reads

A symbol is live at a point when its value may still be read: by a later instruction, by a
branch condition, or as an output at the exit.  The sets are computed backwards, in rounds over
the table, until a round changes no set.  An instruction can go if the symbol that it writes is
not live behind it.
-/

namespace KernelAlgebra.Liveness

/-- A finite set of symbols; the order of the list means nothing. -/
abbrev LiveSet := List Symbol

abbrev Table := List LiveSet

def liveIn (t : Table) (id : Nat) : LiveSet := (t[id]?).getD []

/-- The set before an instruction, from the one after it: writing all of a symbol ends its life. -/
def transfer (i : Instruction) (live : LiveSet) : LiveSet :=
  let kept :=
    if !i.dst.isAbsent && i.dst.covers then live.filter (· ≠ i.dst.sym) else live
  addNew kept i.uses

def throughBlock (block : Block) (live : LiveSet) : LiveSet :=
  block.foldr transfer live

def exitSet (p : Program) (id : Nat) : LiveSet :=
  if id = p.graph.exit then dedup p.outputs else []

def conditionSymbols (n : Node) : List Symbol :=
  n.branches.filterMap Program.conditionSymbol?

def liveOut (p : Program) (t : Table) (id : Nat) (n : Node) : LiveSet :=
  addNew (addNew (exitSet p id) (n.successors.flatMap (liveIn t))) (conditionSymbols n)

def newLiveIn (p : Program) (t : Table) (id : Nat) (n : Node) : LiveSet :=
  throughBlock n.block (liveOut p t id n)

def sameSet (live live' : LiveSet) : Bool :=
  live.all live'.contains && live'.all live.contains

def update (p : Program) (id : Nat) (t : Table) : Table :=
  match p.graph.node? id with
  | none => t
  | some n =>
      let live := newLiveIn p t id n
      if sameSet live (liveIn t id) then t else t.set id live

/-- One round over the nodes, the last one first; a node sees the new sets of those behind it. -/
def round (p : Program) (order : List Nat) (t : Table) : Table :=
  order.foldr (update p) t

def iterate (p : Program) (order : List Nat) : Nat → Table → Table
  | 0, t => t
  | fuel + 1, t =>
      let next := round p order t
      if next = t then t else iterate p order fuel next

/-- Every round but the last adds a symbol to some set, so this many rounds suffice. -/
def roundBound (p : Program) : Nat :=
  p.graph.size * (dedup (p.outputs ++ p.mentions)).length + 1

def start (p : Program) : Table := p.graph.nodes.map fun _ => []

def table (p : Program) : Table :=
  iterate p p.graph.reachable (roundBound p) (start p)

end KernelAlgebra.Liveness

namespace KernelAlgebra.DeadCode

open Liveness

def isDead (live : LiveSet) (i : Instruction) : Bool :=
  if i.op = .nop then true
  else if i.op.hasSideEffect || i.dst.isAbsent then false
  else !live.contains i.dst.sym

def sweepBlock (live : LiveSet) : Block → Block × LiveSet
  | [] => ([], live)
  | i :: rest =>
      let (kept, after) := sweepBlock live rest
      if isDead after i then (kept, after) else (i :: kept, transfer i after)

def sweepNode (p : Program) (order : List Nat) (t : Table) (id : Nat) (n : Node) : Node :=
  if id ∈ order then { n with block := (sweepBlock (liveOut p t id n) n.block).1 } else n

def sweep (p : Program) : Program :=
  let t := table p
  let order := p.graph.reachable
  { p with graph :=
      { p.graph with
        nodes := p.graph.nodes.zipIdx.map fun q => sweepNode p order t q.2 q.1 } }

def sweeps : Nat → Program → Program
  | 0, p => p
  | fuel + 1, p =>
      let q := sweep p
      if q.graph.instructionCount = p.graph.instructionCount then q else sweeps fuel q

/-- Sweeps until nothing is dead; each sweep but the last removes an instruction. -/
def eliminate (p : Program) : Program :=
  sweeps (p.graph.instructionCount + 1) p

def removed (p : Program) : Nat :=
  p.graph.instructionCount - (eliminate p).graph.instructionCount

end KernelAlgebra.DeadCode
