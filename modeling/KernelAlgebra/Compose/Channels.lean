import KernelAlgebra.Compose.Connect

/-!
# Channel programs

Channel programs are building blocks without computation that route values.  Each takes
template symbols and declares fresh copies of them, so names, sizes and types carry over.
-/

namespace KernelAlgebra

def channelProgram (inputs outputs : List Symbol) (block : Block) : Program :=
  { Program.empty "" with
    graph := Graph.initial.setBlock 0 block,
    inputs := inputs,
    outputs := outputs }

namespace Channels

def plain (p : Program) : Compose Handle := Compose.newHandle p [] []

def like (role : Role) (templates : List Symbol) : Compose (List Symbol) :=
  Compose.ofFresh (Fresh.copyAll (fun _ => role) templates)

def passThrough (templates : List Symbol) : Compose Handle := do
  let list ← like .inout templates
  plain (channelProgram list list [])

def sink (templates : List Symbol) : Compose Handle := do
  plain (channelProgram (← like .input templates) [] [])

/-- Has these channels as outputs and never writes them. -/
def source (templates : List Symbol) : Compose Handle := do
  plain (channelProgram [] (← like .output templates) [])

def spread (input template : Symbol) (n : Nat) : Compose Handle := do
  let outs ← like .output (List.replicate n template)
  plain (channelProgram [input] outs (outs.map (Instruction.copy · input)))

def copies (template : Symbol) (n : Nat) : Compose Handle := do
  spread (← Compose.ofFresh (Fresh.copy template .input)) template n

/-- The largest number of copies for which there is room. -/
def maxCopies : Int := (Nat.pow 2 48 : Nat) / 168

def fanOut (template : Symbol) (n : Int) : Compose Handle := do
  let input ← Compose.ofFresh (Fresh.copy template .input)
  if n < 0 || maxCopies < n then throw .outside
  spread input template n.toNat

def permuterBlock (inputs outputs : List Symbol) (src : List (Option Nat)) : Block :=
  (outputs.zip src).filterMap fun (o, place) =>
    (place.bind fun i => inputs[i]?).map (Instruction.copy o)

/-- Copies inputs to outputs as `src` says; an output without a source is never written. -/
def permuter (ins outs : List Symbol) (src : List (Option Nat)) : Compose Handle := do
  let ins ← like .input ins
  let outs ← like .output outs
  plain (channelProgram ins outs (permuterBlock ins outs src))

end Channels

namespace Composer

def checkSelection (free : List Symbol) (seen : List Int) : List Int → Except ComposeError Unit
  | [] => .ok ()
  | i :: rest =>
      match (if i < 0 then none else free[i.toNat]?) with
      | none => .error (.inputIndex i free.length)
      | some s =>
          if i ∈ seen then .error (.inputTwice i s) else checkSelection free (i :: seen) rest

def inverse (n : Nat) (idx : List Nat) : List (Option Nat) :=
  (List.range n).map fun i => idx.idxOf? i

def permuteInputsCore (c : Composer) (h : Option Handle) (idx : List Int) : Compose Handle := do
  match h with
  | none => Compose.refuse (.missing "permutation of a nil program")
  | some h =>
      let free ← Compose.ofFresh h.freeInputs
      match checkSelection free [] idx with
      | .error e => Compose.refuse e
      | .ok () =>
          let places := idx.map Int.toNat
          let selected := places.filterMap (free[·]?)
          let front ← Channels.permuter selected free (inverse free.length places)
          connectCore c (some front) (some h)

/-- Free input `k` of the result is free input `idx[k]`; inputs left out are no longer fed. -/
def permuteInputs (c : Composer) (h : Option Handle) (idx : List Int) : Compose Handle :=
  Compose.observe c "permute_inputs" (permuteInputsCore c h idx)

def selectOutputs (outs : List Symbol) : List Int → Except ComposeError (List Symbol)
  | [] => .ok []
  | i :: rest =>
      match (if i < 0 then none else outs[i.toNat]?) with
      | none => .error (.outputIndex i outs.length)
      | some s => (selectOutputs outs rest).map (s :: ·)

def permuteOutputsCore (c : Composer) (h : Option Handle) (idx : List Int) : Compose Handle := do
  match h with
  | none => Compose.refuse (.missing "permutation of a nil program")
  | some h =>
      match selectOutputs h.outputs idx with
      | .error e => Compose.refuse e
      | .ok selected =>
          let back ← Channels.permuter h.outputs selected (idx.map fun i => some i.toNat)
          connectCore c (some h) (some back)

/-- Output `k` of the result is output `idx[k]`. -/
def permuteOutputs (c : Composer) (h : Option Handle) (idx : List Int) : Compose Handle :=
  Compose.observe c "permute_outputs" (permuteOutputsCore c h idx)

end Composer

end KernelAlgebra
