import KernelAlgebra.Fresh
import KernelAlgebra.Graph.Edit

/-!
# Replacing one instruction by a whole program

The inputs of the replacement read fresh temporaries that are assigned from the sources of
the instruction; its first output is assigned to the destination.
-/

namespace KernelAlgebra

inductive SpliceError where
  | inputCount (at_ : Instruction) (inputs : Nat)
  | noOutputs (at_ : Instruction)
  | inputSize (at_ : Instruction) (input : Symbol) (source : View)
  | outputSize (at_ : Instruction) (output : Symbol) (dst : View)
  | operand (e : OperandError)

namespace SpliceError

def toError : SpliceError → Error
  | inputCount i n =>
      ⟨.arity, s!"splicing {Text.quoted i.text}: replacement has {n} inputs, " ++
        s!"instruction has {i.src.length} sources"⟩
  | noOutputs i => ⟨.arity, s!"splicing {Text.quoted i.text}: replacement has no outputs"⟩
  | inputSize i s v =>
      ⟨.sizeMismatch, s!"splicing {Text.quoted i.text}: input {s.describe} has {s.size} " ++
        s!"elements, source {v.text} has {v.size}"⟩
  | outputSize i s d =>
      ⟨.sizeMismatch, s!"splicing {Text.quoted i.text}: output {s.describe} has {s.size} " ++
        s!"elements, destination {d.text} has {d.size}"⟩
  | operand e => e.toError

end SpliceError

namespace Program

def instructionAt (g : Graph) (id : Nat) (index : Int) : Except GraphFault Instruction :=
  match g.node id with
  | .error f => .error f
  | .ok n =>
      match (if index < 0 then none else n.block[index.toNat]?) with
      | none => .error (.badInstruction index id n.block.length)
      | some i => .ok i

def checkFeeds (i : Instruction) : List Symbol → List View → Except (Fault SpliceError) Unit
  | s :: rest, v :: views =>
      if s.isHole then .error .outside
      else if s.size != v.size then .error (.error (.inputSize i s v))
      else checkFeeds i rest views
  | _, _ => .ok ()

def checkResult (i : Instruction) : List Symbol → Except (Fault SpliceError) Unit
  | [] => .ok ()
  | s :: _ =>
      if i.dst.isAbsent then .ok ()
      else if s.isHole then .error .outside
      else if s.size != i.dst.size then .error (.error (.outputSize i s i.dst))
      else .ok ()

def checkSplice (i : Instruction) (repl : Interface) : Except (Fault SpliceError) Unit :=
  if repl.inputs.length != i.src.length then .error (.error (.inputCount i repl.inputs.length))
  else if !i.dst.isAbsent && repl.outputs.isEmpty then .error (.error (.noOutputs i))
  else
    match checkFeeds i repl.inputs i.src with
    | .error f => .error f
    | .ok () => checkResult i repl.outputs

def feedInputs : List Symbol → List View → Fresh SpliceError (Renaming × Block)
  | s :: rest, v :: views => do
      let t ← Fresh.copy s .temp
      match Instruction.assign (View.full t) v with
      | .error e => Fresh.refuse (.operand e)
      | .ok a =>
          let (m, block) ← feedInputs rest views
          return (m ++ [(s, t)], a :: block)
  | _, _ => return ([], [])

def freshOutputs (m : Renaming) : List Symbol → Fresh SpliceError Renaming
  | [] => return m
  | s :: rest => do
      if (m.lookup s).isSome then freshOutputs m rest
      else
        let t ← Fresh.copy s .temp
        freshOutputs ((s, t) :: m) rest

def epilogueOf (m : Renaming) (dst : View) (outputs : List Symbol) : Except OperandError Block :=
  match outputs with
  | [] => .ok []
  | s :: _ =>
      if dst.isAbsent then .ok []
      else (Instruction.assign dst (View.full (m.apply s))).map ([·])

def withPrologue (g : Graph) (block : Block) : Graph :=
  if block.isEmpty then g else g.prependEntry.setBlock g.size block

def withEpilogue (g : Graph) (block : Block) : Graph :=
  if block.isEmpty then g else g.appendExit.setBlock g.size block

def takesEpilogue (g : Graph) (block : Block) : Bool :=
  block.isEmpty || g.tryAppendExit.isOk

/--
The code that stands for an instruction: a copy of the replacement between the assignments to
its inputs and the one from its first output, with all channels in fresh temporaries.
-/
def inlined (i : Instruction) (repl : Sketch) : Fresh SpliceError Program := do
  let sub ← Fresh.freshCopyOf repl
  let (m, prologue) ← feedInputs sub.inputs i.src
  let m ← freshOutputs m sub.outputs
  match epilogueOf m i.dst sub.outputs with
  | .error e => Fresh.refuse (.operand e)
  | .ok epilogue =>
      let opened := withPrologue (m.onGraph sub.graph) prologue
      if takesEpilogue opened epilogue then
        return { sub with graph := withEpilogue opened epilogue }
      else throw (.crash GraphFault.dangling.message)

def standIn (i : Instruction) (repl : Option Sketch) : Fresh SpliceError Program := do
  let repl ← Fresh.present repl
  Fresh.ofExcept (checkSplice i repl.toInterface)
  inlined i repl

def sharing (p sub : Program) : Program :=
  { p with
    constants := addNew p.constants sub.constants,
    uniforms := addNew p.uniforms sub.uniforms,
    textures := addNew p.textures sub.textures }

end Program

/-- Cuts a node at an instruction, which goes, and puts code between the two parts. -/
def Edit.replaceInstruction (id : Nat) (index : Int) (code : Graph) : Edit Unit := do
  let tail ← Edit.split id index
  modify fun g => g.modify tail fun n => { n with block := n.block.drop 1 }
  let _ ← Edit.insertAfter id code

structure Splice.State where
  program : Program
  supply : Supply

/-- A computation on a program; a fault keeps the program that it was reached with. -/
abbrev Splice := ExceptT (Fault SpliceError) (StateM Splice.State)

namespace Splice

variable {α : Type}

def draw (x : Fresh SpliceError α) : Splice α := do
  let s ← get
  let (r, g) := x.run.run s.supply
  set { s with supply := g }
  match r with
  | .ok a => return a
  | .error f => throw f

def edit (x : Edit α) : Splice α := do
  let s ← get
  let (r, g) := x.run.run s.program.graph
  set { s with program := { s.program with graph := g } }
  match r with
  | .ok a => return a
  | .error f => throw (.crash f.message)

/--
Replaces instruction `index` of a node by an inlined copy of `repl`.  An error leaves the
program as it was.
-/
def replace (id : Nat) (index : Int) (repl : Option Sketch) : Splice Unit := do
  match Program.instructionAt (← get).program.graph id index with
  | .error f => throw (.crash f.message)
  | .ok i =>
      let sub ← draw (Program.standIn i repl)
      edit (Edit.replaceInstruction id index sub.graph)
      modify fun s => { s with program := (s.program.sharing sub).collect }

end Splice

def Program.splice (p : Program) (id : Nat) (index : Int) (repl : Option Sketch) :
    Fresh SpliceError Program := do
  let (r, s) := (Splice.replace id index repl).run.run ⟨p, ← get⟩
  set s.supply
  match r with
  | .ok () => return s.program
  | .error f => throw f

end KernelAlgebra
