import KernelAlgebra.Compose.Composer
import KernelAlgebra.Program.Splice

/-!
# Functional and parallel composition

Connecting feeds the outputs of one program into the free inputs of another, position by
position.  The two channels of a pair become one fresh temporary.  A channel that is both
input and output keeps its other side: an output of the first program that is also an input
is read anew at the entry, and an input of the second that is also an output is written at
the exit.
-/

namespace KernelAlgebra

structure Wire where
  output : Symbol
  input : Symbol
  temp : Symbol
  /-- The input that stands in for an output that is also an input. -/
  entrance : Option Symbol
  /-- The output that stands in for an input that is also an output. -/
  leaving : Option Symbol

namespace Wire

def make (output input : Symbol) : Fresh ComposeError Wire := do
  let t ← Fresh.copy output .temp
  let entrance ← if output.isInOut then some <$> Fresh.copy output .input else pure none
  let leaving ← if input.isInOut then some <$> Fresh.copy input .output else pure none
  return ⟨output, input, t, entrance, leaving⟩

def merging (ws : List Wire) : Renaming :=
  ws.foldl (fun m w => (w.input, w.temp) :: (w.output, w.temp) :: m) []

def prologue (ws : List Wire) : Block :=
  ws.filterMap fun w => w.entrance.map (Instruction.copy w.temp)

def epilogue (ws : List Wire) : Block :=
  ws.filterMap fun w => w.leaving.map (Instruction.copy · w.temp)

def substituted (old : Symbol) (new : Option Symbol) (list : List Symbol) : List Symbol :=
  match new with
  | some s => list.map fun t => if t = old then s else t
  | none => list

def onInputs (ws : List Wire) (list : List Symbol) : List Symbol :=
  ws.foldl (fun l w => substituted w.output w.entrance l) list

def onOutputs (ws : List Wire) (list : List Symbol) : List Symbol :=
  ws.foldl (fun l w => substituted w.input w.leaving l) list

end Wire

def checkPairs : Nat → List (Symbol × Symbol) → Except (Fault ComposeError) Unit
  | _, [] => .ok ()
  | i, (o, n) :: rest =>
      if o.isHole || n.isHole then .error .outside
      else if o.size != n.size then .error (.error (.connectSizes i o n))
      else checkPairs (i + 1) rest

def splitInputs (p : Program) (bound : Nat) : Fresh ComposeError (List Symbol × List Symbol) :=
  if bound ≤ p.inputs.length then return (p.inputs.take bound, p.inputs.drop bound)
  else Fresh.crash

namespace Composer

def wired (code : Program) (ws : List Wire) (inputs outputs : List Symbol) : Program :=
  let g := (Wire.merging ws).onGraph code.graph
  { code with
    graph := Program.withEpilogue (Program.withPrologue g (Wire.prologue ws)) (Wire.epilogue ws),
    inputs := dedup (Wire.onInputs ws inputs),
    outputs := dedup (Wire.onOutputs ws outputs) }

/-- Whether there is an exit to put the epilogue behind. -/
def takesEpilogue (code : Program) (ws : List Wire) : Bool :=
  Program.takesEpilogue (Program.withPrologue code.graph (Wire.prologue ws)) (Wire.epilogue ws)

def connectBoth (c : Composer) (a b : Handle) : Compose Handle := do
  let (ap, bp) ← Compose.ofFresh (operands a.sketch b.sketch)
  let (aBound, aFree) ← Compose.ofFresh (splitInputs ap a.bindings.length)
  let (bBound, bFree) ← Compose.ofFresh (splitInputs bp b.bindings.length)
  let pairs := ap.outputs.zip bFree
  Compose.ofFresh (Fresh.ofExcept (checkPairs 0 pairs))
  let ws ← Compose.ofFresh (pairs.mapM fun (o, n) => Wire.make o n)
  let code ← assemble c ap bp
  if !takesEpilogue code ws then throw (.crash GraphFault.dangling.message)
  let inputs := aBound ++ bBound ++ aFree ++ bFree.drop ap.outputs.length
  let outputs := bp.outputs ++ ap.outputs.drop bFree.length
  let p ← Compose.finish c (wired code ws inputs outputs)
  Compose.newHandle p (a.bindings ++ b.bindings)
    ((Wire.onInputs ws inputs).drop p.inputs.length)

/-- Connects without counting.  An absent operand yields the other one. -/
def connectCore (c : Composer) : Option Handle → Option Handle → Compose Handle
  | some a, some b => connectBoth c a b
  | some a, none => return a
  | none, some b => return b
  | none, none => Compose.refuse (.missing "connect of two nil programs")

/-- Feeds the outputs of `a` into the free inputs of `b`. -/
def connect (c : Composer) (a b : Option Handle) : Compose Handle :=
  Compose.observe c "connect" (connectCore c a b)

def combineBoth (c : Composer) (a b : Handle) : Compose Handle := do
  let (ap, bp) ← Compose.ofFresh (operands a.sketch b.sketch)
  let code ← assemble c ap bp
  let (aBound, aFree) ← Compose.ofFresh (splitInputs ap a.bindings.length)
  let (bBound, bFree) ← Compose.ofFresh (splitInputs bp b.bindings.length)
  let p ← Compose.finish c
    { code with
      inputs := aBound ++ bBound ++ aFree ++ bFree,
      outputs := ap.outputs ++ bp.outputs }
  Compose.newHandle p (a.bindings ++ b.bindings) []

def combineCore (c : Composer) : Option Handle → Option Handle → Compose Handle
  | some a, some b => combineBoth c a b
  | some a, none => return a
  | none, some b => return b
  | none, none => Compose.refuse (.missing "combine of two nil programs")

/-- Runs `a` and `b` side by side. -/
def combine (c : Composer) (a b : Option Handle) : Compose Handle :=
  Compose.observe c "combine" (combineCore c a b)

end Composer

end KernelAlgebra
