import KernelAlgebra.Op
import KernelAlgebra.View

/-!
# Instructions and the check of their operands

An operand may be absent: `nop` and `kil` have no destination, and a graph that was written
down by hand may lack a source.  `Instruction.make` accepts exactly the operand lists that fit
the opcode.
-/

namespace KernelAlgebra

structure Instruction where
  op : Op
  dst : View
  /-- As many operands as the opcode has sources. -/
  src : List View
  deriving DecidableEq

abbrev Block := List Instruction

namespace Instruction

/-- The sources of an opcode, taken from a list as far as it goes. -/
def slots (op : Op) (given : List View) : List View :=
  given.take op.arity ++ List.replicate (op.arity - given.length) View.absent

@[simp] theorem length_slots (op : Op) (given : List View) :
    (slots op given).length = op.arity := by
  simp [slots]
  omega

def raw (op : Op) (dst : View) (given : List View) : Instruction :=
  ⟨op, dst, slots op given⟩

def sources (i : Instruction) : List View :=
  i.src.filter (!·.isAbsent)

def uses (i : Instruction) : List Symbol :=
  i.sources.map View.sym

def defines (i : Instruction) : Option Symbol :=
  if i.dst.isAbsent then none else some i.dst.sym

def reads (i : Instruction) (s : Symbol) : Bool :=
  i.uses.contains s

def writes (i : Instruction) (s : Symbol) : Bool :=
  i.defines == some s

/-! ## Checking -/

def checkSources (op : Op) (index : Nat) : List View → Except OperandError Unit
  | [] => .ok ()
  | v :: rest =>
      if v.isAbsent then .error (.missingSource op.name index)
      else
        match v.check false with
        | .error e => .error e
        | .ok () => checkSources op (index + 1) rest

/-- The first source that is neither scalar nor as wide as the destination. -/
def checkWidths (op : Op) (dst : View) (index : Nat) : List View → Except OperandError Unit
  | [] => .ok ()
  | v :: rest =>
      if v.size != 1 && v.size != dst.size then .error (.sourceSize op.name index v dst)
      else checkWidths op dst (index + 1) rest

def checkRule (op : Op) (dst : View) (srcs : List View) : Except OperandError Unit :=
  match op.rule, srcs with
  | .elementwise, vs => checkWidths op dst 0 vs
  | .dot, [a, b] =>
      if dst.size != 1 then .error (.dotDestination dst)
      else if a.size != b.size then .error (.dotSources a b)
      else .ok ()
  | .cross, [a, b] =>
      if dst.size != 3 || a.size != 3 || b.size != 3 then .error (.crossSizes dst a b)
      else .ok ()
  | .norm, [a] =>
      if dst.size != a.size then .error (.normSizes dst a) else .ok ()
  | .tex, a :: _ =>
      if a.sym.role != .texture then .error (.notATexture a.sym) else .ok ()
  | _, _ => .ok ()

def checkDst (op : Op) (dst : View) : Except OperandError Unit :=
  match op.hasDst, dst.isAbsent with
  | true, true => .error (.missingDestination op.name)
  | true, false => dst.check true
  | false, false => .error (.superfluousDestination op.name)
  | false, true => .ok ()

/-- Checks opcode, operand count, destination, sources and sizes, in this order. -/
def checkOperands (op : Op) (dst : View) (srcs : List View) : Except OperandError Unit :=
  match op with
  | .unknown code => .error (.unknownOpcode code)
  | _ =>
      if srcs.length != op.arity then .error (.wrongCount op.name op.arity srcs.length)
      else
        match checkDst op dst with
        | .error e => .error e
        | .ok () =>
            match checkSources op 0 srcs with
            | .error e => .error e
            | .ok () => checkRule op dst srcs

def make (op : Op) (dst : View) (srcs : List View) : Except OperandError Instruction :=
  (checkOperands op dst srcs).map fun _ => raw op dst srcs

def assign (dst src : View) : Except OperandError Instruction :=
  make .asn dst [src]

def copy (dst src : Symbol) : Instruction :=
  ⟨.asn, View.full dst, [View.full src]⟩

def check (i : Instruction) : Except OperandError Unit :=
  checkOperands i.op i.dst i.src

/-! ## Text -/

def text (i : Instruction) : String :=
  (if i.op.hasDst then i.dst.text ++ " = " else "") ++
    i.op.name ++ String.join (i.src.map fun v => " " ++ v.text)

end Instruction

end KernelAlgebra
