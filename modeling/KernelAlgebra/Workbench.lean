import KernelAlgebra.Compose.Named
import KernelAlgebra.Compose.Record
import KernelAlgebra.Compose.Rename
import KernelAlgebra.Program.Listing
import KernelAlgebra.Report.Interface
import KernelAlgebra.Selection.Fixed
import KernelAlgebra.Selection.Manipulator
import KernelAlgebra.Shader.Writer

/-!
# The workbench

A workbench holds kernels under construction, handles and symbols by name.  Steps act on it
one after another.  A step that fails sets no name, but what it drew from the supply, logged
or counted remains.
-/

namespace KernelAlgebra

structure Workbench where
  composer : Composer
  env : Env := .start
  kernels : List (String × Builder) := []
  handles : List (String × Handle) := []
  symbols : List (String × Symbol) := []
  /-- Programs, by origin, of finished kernels, which may still grow symbols. -/
  links : List (Nat × String) := []

inductive StepError where
  | missing
  | malformed
  | failed (f : Failure)
  deriving Inhabited

abbrev Step := ExceptT StepError (StateM Workbench)

namespace Step

variable {α ε : Type}

def fail (f : Failure) : Step α := throw (.failed f)

def refuse (e : Error) : Step α := fail (.construction e)

def crash : Step α := fail (.crash "runtime error")

def known : Option α → Step α
  | some a => return a
  | none => throw .missing

def present : Option α → Step α
  | some a => return a
  | none => crash

def solid (s : Symbol) : Step Symbol := if s.isHole then crash else return s

def ofFault (toError : ε → Error) : Except (Fault ε) α → Step α
  | .ok a => return a
  | .error (.error e) => refuse (toError e)
  | .error (.crash text) => fail (.crash text)

def ofGraph : Except GraphFault α → Step α
  | .ok a => return a
  | .error f => fail (.crash f.message)

def ofDeclaration : Except DeclarationFault α → Step α
  | .ok a => return a
  | .error e => fail (.crash e.message)

def draw (f : Supply → α × Supply) : Step α := do
  let w ← get
  let (a, g) := f w.env.supply
  set { w with env := { w.env with supply := g } }
  return a

def fresh (toError : ε → Error) (x : Fresh ε α) : Step α := do
  ofFault toError (← draw x.run.run)

def compose (x : Compose α) : Step α := do
  let w ← get
  let (r, env) := x.run.run w.env
  set { w with env := env }
  ofFault ComposeError.toError r

/-! ## Looking names up -/

def kernel (name : String) : Step Builder := do known ((← get).kernels.lookup name)

def symbol (name : String) : Step Symbol := do known ((← get).symbols.lookup name)

/-- Without a name there is no handle. -/
def handle : Option String → Step (Option Handle)
  | some name => do return some (← known ((← get).handles.lookup name))
  | none => return none

def position (list : List Symbol) (name : String) : Step (Option Nat) :=
  match Selection.Index.find name list with
  | .ok i => return some i
  | .error (.error _) => return none
  | .error (.crash text) => fail (.crash text)

/-! ## Setting names -/

def nameSymbol (name : Option String) (s : Symbol) : Step Unit :=
  match name with
  | some n => modify fun w => { w with symbols := (n, s) :: w.symbols }
  | none => return ()

def nameHandle (name : Option String) (h : Handle) : Step Unit :=
  match name with
  | some n => modify fun w => { w with handles := (n, h) :: w.handles }
  | none => return ()

/-- The handle with the program of a kernel, if it is linked to that kernel. -/
def refreshed (links : List (Nat × String)) (name : String) (p : Program) (h : Handle) : Handle :=
  if (h.origin, name) ∈ links then { h with sketch := p.sketch } else h

def putKernel (name : String) (b : Builder) : Step Unit :=
  modify fun w =>
    { w with
      kernels := (name, b) :: w.kernels,
      handles := w.handles.map fun (n, h) => (n, refreshed w.links name b.program h) }

/-! ## Kernels -/

def begin_ (name target : String) : Step Unit := do
  modify fun w => { w with links := w.links.filter (·.2 ≠ name) }
  putKernel name (Builder.start target)

def build (name : String) (f : Builder → Except BuilderError Builder) : Step Unit := do
  match f (← kernel name) with
  | .ok b => putKernel name b
  | .error e => refuse e.toError

/-- Inlining may stop halfway, when the exit of the code leads nowhere. -/
def inline (name : String) (h : Option Handle) : Step Unit := do
  let b ← kernel name
  if b.ended then refuse BuilderError.alreadyEnded.toError
  let s := (← present h).sketch
  match b.checkInline s.toInterface with
  | .error e => refuse e.toError
  | .ok () =>
      let p := (← present s.program?).copied
      match b.graph.trySplice b.current p.graph with
      | .ok _ => putKernel name (b.withCode p)
      | .error f =>
          putKernel name (b.withGraph (b.graph.absorb p.graph))
          fail (.crash f.message)

def declare (d : Declaration) : Step Symbol := do
  let (s, g) ← ofDeclaration ((← get).env.supply.declare d)
  draw fun _ => (s, g)

def declareIn (name : String)
    (f : Builder → Supply → Except DeclarationFault (Symbol × Builder × Supply)) :
    Step Symbol := do
  let b ← kernel name
  let (s, b, g) ← ofDeclaration (f b (← get).env.supply)
  putKernel name b
  draw fun _ => (s, g)

def newHandle (s : Sketch) : Step Handle := compose (Compose.handleOver s [] [])

def finish (name : String) : Step Handle := do
  match (← kernel name).finish with
  | .error e => refuse e.toError
  | .ok (p, b) =>
      putKernel name b
      let h ← newHandle p.sketch
      modify fun w => { w with links := (h.origin, name) :: w.links }
      return h

def assignRecord (name : String) (dst src : Record) : Step Unit := do
  putKernel name (← ofFault ComposeError.toError (Record.assign (← kernel name) dst src))

def assignProgram (name : String) (r : Record) (h : Option Handle) (args : Record) :
    Step Unit := do
  let b ← compose ((← get).composer.assignProgram r (← kernel name) h args)
  putKernel name b

/-! ## Handles -/

def composed (f : Composer → Compose Handle) : Step Handle := do compose (f (← get).composer)

def bind_ (h : Handle) (kind : BindingKind) (sources : List Symbol) : Step Handle :=
  compose (Compose.bound h kind sources)

def resolved (h : Handle) : Step Program := compose (Compose.ofFresh h.resolve)

/-- Two absent programs count as the same one. -/
def sharesLocals : Option Handle → Option Handle → Step Bool
  | none, none => return true
  | some a, some b =>
      return a.origin = b.origin || a.sketch.sharesLocals b.sketch.toInterface
  | _, _ => crash

def listing (s : Sketch) : Step String := do
  let p ← present s.program?
  if p.symbols.any (·.isHole) then crash else return p.listing

def issues : Option Handle → Step (List Issue)
  | none => fail (.other "program is nil")
  | some h =>
      match h.sketch.program? with
      | some p => return p.issues
      | none => fail (.other "program has no CFG")

def interfaceReport : Option Handle → Step String
  | none => refuse ⟨.nullOperand, "describing a nil program"⟩
  | some h => present h.sketch.report?

def bindingReport : Option Handle → Step String
  | none => refuse ⟨.nullOperand, "describing a nil program"⟩
  | some h => present h.report?

/-! ## Backends -/

def attributes (raw : Bool) : Option Handle → Step (List Attribute)
  | none => refuse AttributeError.missing.toError
  | some h => ofFault AttributeError.toError (if raw then h.sketch.attributes else h.attributes)

def ofShader : Except Shader.ShaderError α → Step α
  | .ok a => return a
  | .error e => fail e.toFailure

def shader (o : Shader.Options) : Option Handle → Step Shader.Output
  | none => ofShader (.error (.missing "compiling a nil handle"))
  | some h => do ofShader (Shader.compile (← resolved h).sketch o)

def rawShader (o : Shader.Options) : Option Handle → Step Shader.Output
  | none => ofShader (.error (.missing "compiling a nil program"))
  | some h => ofShader (Shader.compile h.sketch o)

/-! ## Runs -/

def ofRun : Except Machine.RunError α → Step α
  | .ok a => return a
  | .error e => fail (.run e)

def execute (s : Sketch) (inputs : List (List Float)) (o : RunOptions) :
    Step (Machine.Result × Machine.Store) := do
  let _ ← ofRun (Machine.start s.toInterface inputs)
  let p ← present s.program?
  let f ← ofRun (p.runToEnd inputs o)
  let r ← ofRun (Machine.result p o.overrides f)
  return (r, f.store)

def valueAfter (o : RunOptions) (st : Machine.Store) (s : Symbol) : Step (List Float) := do
  return st.get o.overrides (← solid s)

end Step

namespace Workbench

def perform {α : Type} (w : Workbench) (x : Step α) :
    Except StepError α × List String × Workbench :=
  let (r, w) := x.run.run { w with env := { w.env with log := [] } }
  (r, w.env.log, w)

end Workbench

end KernelAlgebra
