import KernelAlgebra.Assembly.Lowering
import KernelAlgebra.Machine

/-!
# Statements read as structured code

Conditionals and loops enclose statements, and everything else happens in the order in which it
is written.  This reading knows nothing of nodes and edges: it works on vectors that belong to
names, and a literal stands for its numbers.  Declarations only say which names there are and
what their vectors are at first.
-/

namespace KernelAlgebra.Assembly

open Machine

inductive Code where
  | done
  | assign (op : Op) (dst : Operand) (srcs : List Operand) (rest : Code)
  | kill (src : Operand) (rest : Code)
  | choice (cond : Operand) (yes no rest : Code)
  | loop (cond : Operand) (body rest : Code)

/-- The statements have this structure.  A conditional may do without an alternative. -/
inductive Reads : List Statement → Code → Prop
  | done : Reads [] .done
  | decl {d : DeclStatement} {stmts : List Statement} {code : Code} :
      Reads stmts code → Reads (.decl d :: stmts) code
  | assign {op : Op} {dst : Operand} {srcs : List Operand} {span : Span}
      {stmts : List Statement} {code : Code} :
      Reads stmts code → Reads (.instr op dst srcs span :: stmts) (.assign op dst srcs code)
  | kill {src : Operand} {span : Span} {stmts : List Statement} {code : Code} :
      Reads stmts code → Reads (.kill src span :: stmts) (.kill src code)
  | choice {cond : Operand} {span span' : Span} {body stmts : List Statement}
      {yes code : Code} :
      Reads body yes → Reads stmts code →
      Reads (.openIf cond span :: (body ++ .closeIf span' :: stmts)) (.choice cond yes .done code)
  | alternative {cond : Operand} {span span' span'' : Span}
      {body other stmts : List Statement} {yes no code : Code} :
      Reads body yes → Reads other no → Reads stmts code →
      Reads (.openIf cond span :: (body ++ .openElse span' :: (other ++ .closeIf span'' :: stmts)))
        (.choice cond yes no code)
  | loop {cond : Operand} {span span' : Span} {body stmts : List Statement}
      {inner code : Code} :
      Reads body inner → Reads stmts code →
      Reads (.openWhile cond span :: (body ++ .closeWhile span' :: stmts))
        (.loop cond inner code)

/-! ## Vectors by name -/

abbrev Memory := String → List Float

def Memory.set (m : Memory) (name : String) (xs : List Float) : Memory :=
  fun other => if other = name then xs else m other

namespace Operand

def pick (selector : String) (xs : List Float) : Option (List Float) :=
  if selector = "" then some xs
  else
    match readSelector selector with
    | .ok idx => idx.mapM (element? xs)
    | .error _ => none

def overwrite (selector : String) (xs values : List Float) : Option (List Float) :=
  if selector = "" then some values
  else
    match readSelector selector with
    | .ok idx => some ((idx.zip values).foldl (fun ys q => ys.set q.1.toNat q.2) xs)
    | .error _ => none

def value (m : Memory) : Operand → Option (List Float)
  | .literal values _ => some values
  | .ref name selector neg _ =>
      (pick selector (m name)).map fun xs => if neg then xs.map (- ·) else xs

def width (m : Memory) : Operand → Nat
  | .literal values _ => values.length
  | .ref name selector _ _ => if selector = "" then (m name).length else selector.length

def update (m : Memory) (values : List Float) : Operand → Option Memory
  | .literal .. => none
  | .ref name selector _ _ => (overwrite selector (m name) values).map (m.set name)

def assign (m : Memory) (op : Op) (dst : Operand) (srcs : List Operand) : Option Memory := do
  let xs ← srcs.mapM (value m)
  let values ← compute op (dst.width m) xs
  dst.update m values

def holds (m : Memory) (cond : Operand) : Option Bool :=
  match cond.value m with
  | some (x :: _) => some (x > 0)
  | _ => none

end Operand

/-! ## Evaluation -/

/-- From one memory the code comes to another one, and is discarded on the way or not. -/
inductive Evaluates : Code → Memory → Memory → Bool → Prop
  | done (m : Memory) : Evaluates .done m m false
  | assign {op : Op} {dst : Operand} {srcs : List Operand} {rest : Code} {m mid fin : Memory}
      {killed : Bool} :
      dst.assign m op srcs = some mid → Evaluates rest mid fin killed →
      Evaluates (.assign op dst srcs rest) m fin killed
  | pass {src : Operand} {rest : Code} {m fin : Memory} {xs : List Float} {killed : Bool} :
      src.value m = some xs → xs.any (· < 0) = false → Evaluates rest m fin killed →
      Evaluates (.kill src rest) m fin killed
  | discard {src : Operand} {rest : Code} {m : Memory} {xs : List Float} :
      src.value m = some xs → xs.any (· < 0) = true → Evaluates (.kill src rest) m m true
  | choice {cond : Operand} {yes no rest : Code} {m mid fin : Memory} {t killed : Bool} :
      cond.holds m = some t → Evaluates (bif t then yes else no) m mid false →
      Evaluates rest mid fin killed → Evaluates (.choice cond yes no rest) m fin killed
  | choiceDiscard {cond : Operand} {yes no rest : Code} {m fin : Memory} {t : Bool} :
      cond.holds m = some t → Evaluates (bif t then yes else no) m fin true →
      Evaluates (.choice cond yes no rest) m fin true
  | leave {cond : Operand} {body rest : Code} {m fin : Memory} {killed : Bool} :
      cond.holds m = some false → Evaluates rest m fin killed →
      Evaluates (.loop cond body rest) m fin killed
  | again {cond : Operand} {body rest : Code} {m mid fin : Memory} {killed : Bool} :
      cond.holds m = some true → Evaluates body m mid false →
      Evaluates (.loop cond body rest) mid fin killed →
      Evaluates (.loop cond body rest) m fin killed
  | loopDiscard {cond : Operand} {body rest : Code} {m fin : Memory} :
      cond.holds m = some true → Evaluates body m fin true →
      Evaluates (.loop cond body rest) m fin true

/-! ## The names -/

namespace DeclStatement

def isInput (d : DeclStatement) : Bool := d.role = .input || d.role = .inout

def isOutput (d : DeclStatement) : Bool := d.role = .output || d.role = .inout

def startValue (u : Overrides) (d : DeclStatement) : List Float :=
  match d.role, u.lookup d.name with
  | .uniform, some xs => padded d.size xs
  | _, _ => padded d.size d.values

end DeclStatement

def declarations (stmts : List Statement) : List DeclStatement :=
  stmts.filterMap fun
    | .decl d => some d
    | _ => none

def inputsOf (ds : List DeclStatement) : List DeclStatement := ds.filter DeclStatement.isInput

def outputsOf (ds : List DeclStatement) : List DeclStatement := ds.filter DeclStatement.isOutput

def Supplied (ds : List DeclStatement) (values : List (List Float)) : Prop :=
  values.length = (inputsOf ds).length ∧ ∀ q ∈ (inputsOf ds).zip values, q.2.length = q.1.size

def Memory.start (ds : List DeclStatement) (u : Overrides) (values : List (List Float)) : Memory :=
  fun name =>
    match (((inputsOf ds).map DeclStatement.name).zip values).lookup name with
    | some xs => xs
    | none => ((ds.find? (·.name == name)).map (DeclStatement.startValue u)).getD []

end KernelAlgebra.Assembly
