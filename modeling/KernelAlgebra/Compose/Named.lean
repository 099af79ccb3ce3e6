import KernelAlgebra.Compose.Channels

/-!
# Composition by name

An output is connected to the first free input that has its name and its size and has not
been taken yet.  Free inputs that agree in name and size are merged into one.
-/

namespace KernelAlgebra

/-! ## Matching names -/

structure NameMatch where
  pairs : List (Nat × Nat)
  warnings : List String

namespace NameMatch

def empty : NameMatch := ⟨[], []⟩

def sizeWarning (output input : Symbol) : String :=
  s!"output {output.describe} not connected to input {input.describe}: sizes differ"

/-- The input for one output: an equal name with another size is reported and skipped. -/
def inputFor (taken : List Nat) (output : Symbol) : List (Symbol × Nat) → Option Nat × List String
  | [] => (none, [])
  | (input, j) :: rest =>
      if j ∈ taken || input.name != output.name then inputFor taken output rest
      else if input.size != output.size then
        let (found, warnings) := inputFor taken output rest
        (found, sizeWarning output input :: warnings)
      else (some j, [])

def taken (m : NameMatch) : List Nat := m.pairs.map Prod.snd

def add (inputs : List Symbol) (m : NameMatch) (output : Symbol × Nat) : NameMatch :=
  let (found, warnings) := inputFor m.taken output.1 inputs.zipIdx
  ⟨m.pairs ++ (found.map fun j => (output.2, j)).toList, m.warnings ++ warnings⟩

def ofLists (outputs inputs : List Symbol) : NameMatch :=
  outputs.zipIdx.foldl (add inputs) empty

def meetsHole (taken : List Nat) (output : Symbol) : List (Symbol × Nat) → Bool
  | [] => false
  | (input, j) :: rest =>
      if j ∈ taken then meetsHole taken output rest
      else if input.isHole || output.isHole then true
      else if input.name = output.name && input.size = output.size then false
      else meetsHole taken output rest

def isClear (inputs : List Symbol) : NameMatch → List (Symbol × Nat) → Bool
  | _, [] => true
  | m, output :: rest =>
      !meetsHole m.taken output.1 inputs.zipIdx && isClear inputs (add inputs m output) rest

def outputOf? (m : NameMatch) (j : Nat) : Option Nat :=
  (m.pairs.find? (·.2 = j)).map Prod.fst

def isMatchedOutput (m : NameMatch) (i : Nat) : Bool := m.pairs.any (·.1 = i)

def unmatched (m : NameMatch) (inputs : List Symbol) : List Symbol :=
  (inputs.zipIdx.filter fun q => (m.outputOf? q.2).isNone).map Prod.fst

/--
For every input the place of its channel, where the `outputs` outputs come first and the
channels of the unmatched inputs follow in order.
-/
def sources (m : NameMatch) (outputs : Nat) : Nat → List Nat → List Nat
  | _, [] => []
  | k, j :: rest =>
      match m.outputOf? j with
      | some i => i :: m.sources outputs k rest
      | none => (outputs + k) :: m.sources outputs (k + 1) rest

def extras (m : NameMatch) (outputs : Nat) : List Nat :=
  (List.range outputs).filter fun i => !m.isMatchedOutput i

end NameMatch

/-! ## Merging inputs -/

abbrev NameGroup := (String × Nat) × List Nat

namespace NameGroup

def key (s : Symbol) : String × Nat := (s.name, s.size)

def add (k : String × Nat) (i : Nat) : List NameGroup → List NameGroup
  | [] => [(k, [i])]
  | (k', is) :: rest => if k' = k then (k', is ++ [i]) :: rest else (k', is) :: add k i rest

/-- The groups in the order of their first members. -/
def ofList (inputs : List Symbol) : List NameGroup :=
  inputs.zipIdx.foldl (fun gs q => add (key q.1) q.2 gs) []

end NameGroup

namespace Composer

def optimized (c : Composer) (h : Handle) : Compose Handle := do
  let p ← Compose.finish c (← Compose.ofFresh (Fresh.copyOf h.sketch))
  Compose.newHandle p h.bindings []

/-- One channel for every group: copies for several members, the identity for one. -/
def groupPiece (free : List Symbol) (g : NameGroup) : Compose Handle := do
  match g.2.filterMap (free[·]?) with
  | [] => Channels.passThrough []
  | [s] => Channels.passThrough [s]
  | s :: rest => Channels.copies s (rest.length + 1)

def groupFeeder (c : Composer) (free : List Symbol) :
    Option Handle → List NameGroup → Compose (Option Handle)
  | feeder, [] => return feeder
  | feeder, g :: rest => do
      let piece ← groupPiece free g
      let wider ← combineCore c feeder (some piece)
      groupFeeder c free (some wider) rest

def mergeNamesOf (c : Composer) (h : Handle) : Compose Handle := do
  let free ← Compose.ofFresh h.freeInputs
  if free.any (·.isHole) then throw .outside
  let groups := NameGroup.ofList free
  if groups.length = free.length then
    if c.optimize then optimized c h else return h
  else
    let feeder ← groupFeeder c.raw free none groups
    let order := groups.flatMap fun g => g.2.map Int.ofNat
    let grouped ← permuteInputsCore c.raw (some h) order
    connectCore c feeder (some grouped)

def mergeNamesCore (c : Composer) : Option Handle → Compose Handle
  | some h => mergeNamesOf c h
  | none => Compose.refuse (.missing "merge names of a nil program")

/-- Collapses free inputs of equal name and size into one that feeds all of them. -/
def mergeNames (c : Composer) (h : Option Handle) : Compose Handle :=
  Compose.observe c "merge_names" (mergeNamesCore c h)

/-! ## Connecting and combining -/

def namedConnectBoth (c : Composer) (a b : Handle) (keepExtra : Bool) : Compose Handle := do
  let outs := a.outputs
  let free ← Compose.ofFresh b.freeInputs
  if !NameMatch.isClear free .empty outs.zipIdx then throw .outside
  let m := NameMatch.ofLists outs free
  m.warnings.forM fun w => Compose.log c s!"warning: {w}"
  let rest ← Channels.passThrough (m.unmatched free)
  let wide ← combineCore c.raw (some a) (some rest)
  let places := m.sources outs.length 0 (List.range free.length) ++
    (if keepExtra then m.extras outs.length else [])
  let arranged ← permuteOutputsCore c.raw (some wide) (places.map Int.ofNat)
  let joined ← connectCore c.raw (some arranged) (some b)
  let s := joined.sketch
  mergeNamesOf c
    { joined with sketch := { s with diagnostics := s.diagnostics ++ m.warnings } }

def namedConnectCore (c : Composer) (keepExtra : Bool) :
    Option Handle → Option Handle → Compose Handle
  | some a, some b => namedConnectBoth c a b keepExtra
  | some a, none => mergeNamesOf c a
  | none, some b => mergeNamesOf c b
  | none, none => Compose.refuse (.missing "named connect of two nil programs")

/--
Connects by name.  Free inputs of `b` without a partner stay inputs; outputs of `a` without
one are dropped unless `keepExtra` is set.
-/
def namedConnect (c : Composer) (a b : Option Handle) (keepExtra : Bool) : Compose Handle :=
  Compose.observe c "named_connect" (namedConnectCore c keepExtra a b)

def namedCombineCore (c : Composer) (a b : Option Handle) : Compose Handle := do
  let h ← combineCore c.raw a b
  mergeNamesOf c h

def namedCombine (c : Composer) (a b : Option Handle) : Compose Handle :=
  Compose.observe c "named_combine" (namedCombineCore c a b)

end Composer

end KernelAlgebra
