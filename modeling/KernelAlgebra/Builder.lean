import KernelAlgebra.ConstantPool
import KernelAlgebra.Program.Basic

/-!
# Writing a program one statement at a time

Statements go to the end of the current node.  An open conditional or loop is a frame that
remembers the node of its test and the node where control continues after it.  Statements
are refused once the program is finished.
-/

namespace KernelAlgebra

/-! ## Builders -/

inductive FrameKind where
  | conditional
  | alternative
  | loop
  deriving DecidableEq, Repr

structure Frame where
  kind : FrameKind
  head : Nat
  join : Nat
  deriving DecidableEq, Repr

structure Builder where
  program : Program
  current : Nat
  /-- The innermost frame comes first. -/
  frames : List Frame
  pool : ConstantPool
  ended : Bool
  deriving DecidableEq

inductive BuilderError where
  | alreadyEnded
  | operand (e : OperandError)
  | missingCondition
  | elseWithoutIf
  | endifWithoutIf
  | endwhileWithoutWhile
  | unterminated (kind : FrameKind)
  | openInterface (p : Interface)

namespace BuilderError

def toError : BuilderError → Error
  | alreadyEnded => ⟨.invalidGraph, "builder already ended"⟩
  | operand e => e.toError
  | missingCondition => ⟨.arity, "missing branch condition"⟩
  | elseWithoutIf => ⟨.invalidGraph, "else without if"⟩
  | endifWithoutIf => ⟨.invalidGraph, "endif without if"⟩
  | endwhileWithoutWhile => ⟨.invalidGraph, "endwhile without while"⟩
  | unterminated .loop => ⟨.invalidGraph, "unterminated while"⟩
  | unterminated _ => ⟨.invalidGraph, "unterminated if"⟩
  | openInterface p =>
      ⟨.unsupportedBinding, s!"cannot inline {p.summary}: it still has " ++
        s!"{p.inputs.length} inputs and {p.outputs.length} outputs"⟩

end BuilderError

namespace Program

def declare (p : Program) (s : Symbol) : Program :=
  match s.role with
  | .input => { p with inputs := p.inputs ++ [s] }
  | .output => { p with outputs := p.outputs ++ [s] }
  | .inout => { p with inputs := p.inputs ++ [s], outputs := p.outputs ++ [s] }
  | .temp => { p with temps := p.temps ++ [s] }
  | .const => { p with constants := addNew p.constants [s] }
  | .uniform => { p with uniforms := p.uniforms ++ [s] }
  | .stream | .texture => { p with textures := p.textures ++ [s] }

end Program

namespace Builder

def start (target : String) : Builder :=
  { program := (Interface.empty target).withGraph ⟨[Node.empty, Node.empty], 0, 1⟩,
    current := 0,
    frames := [],
    pool := .empty,
    ended := false }

def graph (b : Builder) : Graph := b.program.graph

def withGraph (b : Builder) (g : Graph) : Builder :=
  { b with program := { b.program with graph := g } }

/-! ## Symbols -/

def declare (b : Builder) (g : Supply) (d : Declaration) :
    Except DeclarationFault (Symbol × Builder × Supply) :=
  match g.declare d with
  | .error e => .error e
  | .ok (s, g) => .ok (s, { b with program := b.program.declare s }, g)

/-- The shared constant with these numbers, listed on its first use. -/
def constant (b : Builder) (g : Supply) (values : List Float) :
    Except DeclarationFault (Symbol × Builder × Supply) :=
  match b.pool.get g .float32 values with
  | .error e => .error e
  | .ok (s, pool, g) => .ok (s, { b with program := b.program.declare s, pool := pool }, g)

/-! ## Straight-line statements -/

/-- Guards a statement: nothing follows the end. -/
def ifAlive (b : Builder) (k : Except BuilderError Builder) : Except BuilderError Builder :=
  if b.ended then .error .alreadyEnded else k

def emit (b : Builder) (op : Op) (dst : View) (srcs : List View) : Except BuilderError Builder :=
  b.ifAlive <|
    match Instruction.make op dst srcs with
    | .error e => .error (.operand e)
    | .ok i =>
        .ok (b.withGraph (b.graph.modify b.current fun n => { n with block := n.block ++ [i] }))

def assign (b : Builder) (dst src : View) : Except BuilderError Builder :=
  b.emit .asn dst [src]

def kill (b : Builder) (src : View) : Except BuilderError Builder :=
  b.emit .kil View.absent [src]

/-! ## Conditionals and loops -/

def checkCondition (cond : View) : Except BuilderError Unit :=
  if cond.isAbsent then .error .missingCondition
  else (cond.check false).mapError .operand

def openIf (b : Builder) (cond : View) : Except BuilderError Builder :=
  b.ifAlive <|
    match checkCondition cond with
    | .error e => .error e
    | .ok () =>
        let (g, body) := b.graph.newNode
        let (g, join) := g.newNode
        let g := g.modify b.current fun n =>
          { n with branches := n.branches ++ [⟨cond, body⟩], follower := some join }
        .ok { b.withGraph g with
              current := body,
              frames := ⟨.conditional, b.current, join⟩ :: b.frames }

def openElse (b : Builder) : Except BuilderError Builder :=
  b.ifAlive <|
    match b.frames with
    | ⟨.conditional, head, join⟩ :: outer =>
        let (g, alternative) := b.graph.newNode
        let g := (g.setFollower head (some alternative)).setFollower b.current (some join)
        .ok { b.withGraph g with
              current := alternative,
              frames := ⟨.alternative, head, join⟩ :: outer }
    | _ => .error .elseWithoutIf

def closeIf (b : Builder) : Except BuilderError Builder :=
  b.ifAlive <|
    match b.frames with
    | ⟨kind, _, join⟩ :: outer =>
        if kind = .loop then .error .endifWithoutIf
        else
          .ok { b.withGraph (b.graph.setFollower b.current (some join)) with
                current := join,
                frames := outer }
    | [] => .error .endifWithoutIf

/-- Opens a loop: its test, its body and what comes after get a node each. -/
def openWhile (b : Builder) (cond : View) : Except BuilderError Builder :=
  b.ifAlive <|
    match checkCondition cond with
    | .error e => .error e
    | .ok () =>
        let (g, head) := b.graph.newNode
        let (g, body) := g.newNode
        let (g, after) := g.newNode
        let g := g.setFollower b.current (some head)
        let g := g.modify head fun n =>
          { n with branches := [⟨cond, body⟩], follower := some after }
        .ok { b.withGraph g with
              current := body,
              frames := ⟨.loop, head, after⟩ :: b.frames }

def closeWhile (b : Builder) : Except BuilderError Builder :=
  b.ifAlive <|
    match b.frames with
    | ⟨.loop, head, join⟩ :: outer =>
        .ok { b.withGraph (b.graph.setFollower b.current (some head)) with
              current := join,
              frames := outer }
    | _ => .error .endwhileWithoutWhile

/-! ## Inlining and ending -/

def checkInline (b : Builder) (i : Interface) : Except BuilderError Unit :=
  if b.ended then .error .alreadyEnded
  else if !i.inputs.isEmpty || !i.outputs.isEmpty then .error (.openInterface i)
  else .ok ()

/-- The kernel with code behind its current node and the resources that the code needs. -/
def withCode (b : Builder) (p : Program) : Builder :=
  let q := b.program
  { b with
    program :=
      { q with
        graph := q.graph.insertAfter b.current p.graph,
        constants := addNew q.constants p.constants,
        uniforms := addNew q.uniforms p.uniforms,
        textures := addNew q.textures p.textures,
        temps := addNew q.temps p.temps },
    current := p.graph.exitIn q.graph }

def inline (b : Builder) (p : Program) : Except BuilderError Builder :=
  (b.checkInline p.toInterface).map fun _ => b.withCode p.copied

def finish (b : Builder) : Except BuilderError (Program × Builder) :=
  if b.ended then .error .alreadyEnded
  else
    match b.frames with
    | f :: _ => .error (.unterminated f.kind)
    | [] =>
        let g := b.graph.setFollower b.current (some b.graph.exit)
        let p := (b.withGraph g).program.collect
        .ok (p, { b with program := p, ended := true })

end Builder

end KernelAlgebra
