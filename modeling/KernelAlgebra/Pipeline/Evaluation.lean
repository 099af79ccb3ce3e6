import KernelAlgebra.Compose.Named
import KernelAlgebra.Compose.Rename
import KernelAlgebra.Failure
import KernelAlgebra.Pipeline.Expr
import KernelAlgebra.Selection.Fixed
import KernelAlgebra.Selection.Manipulator

/-!
# Evaluating composition expressions

    swizzle(e, ch...)      reorder, drop or repeat the outputs of e
    inputs(e, ch...)       reorder, drop or repeat the free inputs of e
    in(e, f...)            fixed manipulators in front of e
    out(e, f...)           fixed manipulators behind e
    rename_in(e, old, new) rename a free input of e
    rename_out(e, old, new)
    merge(e)               merge free inputs of e that share a name
    named(a, b)            connect by name, keeping unmatched outputs of a

Channels are indices, of which negative ones count from the end, or names.  Fixed
manipulators are keep(n), lose(n), dup(n) and wrap(e).
-/

namespace KernelAlgebra.Pipeline

inductive EvalError where
  | unknownKernel (name : String)
  | notKernel (e : Expr)
  | strayManipulator (e : Expr)
  | noProgram (operation : String)
  | wrongCount (operation : String) (wanted got : Nat)
  | expectedChannel (e : Expr)
  | expectedManipulator (e : Expr)
  | negativeCount (manipulator : String) (e : Expr)
  | unknownManipulator (name : String)
  | unknownOperation (name : String)

namespace EvalError

def kind? : EvalError → Option ErrorKind
  | noProgram _ | wrongCount .. => some .arity
  | negativeCount .. => some .range
  | _ => none

def detail : EvalError → String
  | unknownKernel name => s!"unknown kernel {name}"
  | notKernel e => s!"{e.text} is not a kernel"
  | strayManipulator e => s!"{e.text} is a fixed manipulator and needs in() or out()"
  | noProgram operation => s!"{operation} needs a program argument"
  | wrongCount operation wanted got =>
      let noun := if wanted = 1 then "argument" else "arguments"
      s!"{operation} takes {wanted} {noun}, got {got}"
  | expectedChannel e => s!"expected a channel name, got {e.text}"
  | expectedManipulator e => s!"expected a fixed manipulator, got {e.text}"
  | negativeCount manipulator e => s!"{manipulator} needs a non-negative count, got {e.text}"
  | unknownManipulator name => s!"unknown fixed manipulator {name}"
  | unknownOperation name => s!"unknown operation {name}"

def toFailure (e : EvalError) : Failure :=
  match e.kind? with
  | some k => .construction ⟨k, e.detail⟩
  | none => .other e.detail

end EvalError

abbrev Build := ExceptT Failure (StateM Env)

namespace Build

variable {α : Type}

def fail (e : EvalError) : Build α := throw e.toFailure

def compose (x : Compose α) : Build α := do
  let (r, env) := x.run.run (← get)
  set env
  match r with
  | .ok a => return a
  | .error (.error e) => throw (.construction e.toError)
  | .error (.crash text) => throw (.crash text)

def inside (outer : String) (x : Build α) : Build α :=
  tryCatch x fun f => throw (.within outer f)

def resolved (h : Handle) : Build Program := compose (Compose.ofFresh h.resolve)

end Build

abbrev Kernels := List (String × Handle)

open Selection

def Joint.join (c : Composer) (a b : Handle) : Joint → Compose Handle
  | connect => c.connect (some a) (some b)
  | after => c.connect (some b) (some a)
  | connectNamed => c.namedConnect (some a) (some b) false
  | combine => c.combine (some a) (some b)
  | combineNamed => c.namedCombine (some a) (some b)

/-! ## Arguments -/

def channelName : Expr → Build String
  | .ref name => return name
  | .quoted value => return value.shown
  | e => Build.fail (.expectedChannel e)

def channel : Expr → Build Index
  | .number n => return .absolute n
  | e => do return .named (← channelName e) 0

def manipulator (args : List Expr) : Build Manipulator :=
  args.mapM fun e => do return Span.single (← channel e)

def counted (name : String) (n : Int) : Build Fixed :=
  match name with
  | "keep" => return .keep n
  | "lose" => return .lose n
  | "dup" => return .dup n
  | _ => Build.fail (.unknownManipulator name)

def isManipulatorName (name : String) : Bool :=
  name = "keep" || name = "lose" || name = "dup" || name = "wrap"

/-! ## Operations -/

def operation (c : Composer) (name : String) (h : Handle) (args : List Expr)
    (manipulators : Build (List Fixed)) : Build Handle := do
  match name with
  | "swizzle" =>
      let m ← manipulator args
      Build.compose (c.selectOutputsBy (some h) m)
  | "inputs" =>
      let m ← manipulator args
      Build.compose (c.selectInputs (some h) m)
  | "in" =>
      let fs ← manipulators
      Build.compose (c.fixInputs (some h) (.tree fs))
  | "out" =>
      let fs ← manipulators
      Build.compose (c.fixOutputs (some h) (.tree fs))
  | "rename_in" | "rename_out" =>
      match args with
      | [old, new] =>
          let old ← channelName old
          let new ← channelName new
          if name = "rename_in" then Build.compose (c.renameInput (some h) old new)
          else Build.compose (c.renameOutput (some h) old new)
      | _ => Build.fail (.wrongCount name 3 (args.length + 1))
  | "merge" =>
      if args.isEmpty then Build.compose (c.mergeNames (some h))
      else Build.fail (.wrongCount name 1 (args.length + 1))
  | _ => Build.fail (.unknownOperation name)

section

variable (c : Composer) (kernels : Kernels)

mutual

def eval : Expr → Build Handle
  | .ref name =>
      match kernels.lookup name with
      | some h => return h
      | none => Build.fail (.unknownKernel name)
  | .binary joint left right => do
      let a ← eval left
      let b ← eval right
      Build.compose (joint.join c a b)
  | .number n => Build.fail (.notKernel (.number n))
  | .quoted s => Build.fail (.notKernel (.quoted s))
  | .call name args =>
      if isManipulatorName name then Build.fail (.strayManipulator (.call name args))
      else if name = "named" then evalNamed args
      else
        match args with
        | [] => Build.fail (.noProgram name)
        | e :: rest => do
            let h ← eval e
            operation c name h rest (evalFixed rest)

def evalNamed : List Expr → Build Handle
  | [left, right] => do
      let a ← eval left
      let b ← eval right
      Build.compose (c.namedConnect (some a) (some b) true)
  | args => Build.fail (.wrongCount "named" 2 args.length)

def evalFixed : List Expr → Build (List Fixed)
  | [] => return []
  | .call "wrap" [e] :: rest => do
      let h ← eval e
      return .wrap (some h) :: (← evalFixed rest)
  | .call name [.number n] :: rest => do
      if n < 0 then Build.fail (.negativeCount name (.number n))
      else
        let f ← counted name n
        return f :: (← evalFixed rest)
  | .call name [e] :: _ => Build.fail (.negativeCount name e)
  | .call name args :: _ => Build.fail (.wrongCount name 1 args.length)
  | e :: _ => Build.fail (.expectedManipulator e)

end

end

end KernelAlgebra.Pipeline
