import KernelAlgebra.Assembly.Lowering
import KernelAlgebra.Failure
import KernelAlgebra.Optimizer.Basic

/-!
# From source text to a program

Validation and optimization come on request.
-/

namespace KernelAlgebra.Assembly

structure CompileOptions where
  /-- Replaces the target of the source unless it is empty. -/
  target : String := ""
  validate : Bool := true
  optimize : Bool := false

def parseFile (source : Text) : Except Failure File :=
  match parse source with
  | .error e => .error (.source e)
  | .ok r => if r.errors.isEmpty then .ok r.file else .error (.sources r.errors)

def compileWithWarnings (source : Text) (g : Supply) : Except Failure Lowered × Supply :=
  match parseFile source with
  | .error e => (.error e, g)
  | .ok f =>
      match lower source f g with
      | (.ok l, g) => (.ok l, g)
      | (.error e, g) => (.error (.source e), g)

def retarget (p : Program) (target : String) : Program :=
  if target = "" then p else { p with target := target }

def checked (p : Program) (o : CompileOptions) : Except Failure Program :=
  match if o.validate then p.issues else [] with
  | i :: _ => .error (.within "validation failed" (.invalid i))
  | [] => .ok (if o.optimize then (p.optimize {}).1 else p)

def compile (source : Text) (o : CompileOptions) (g : Supply) : Except Failure Program × Supply :=
  match parseFile source with
  | .error e => (.error (.within "parse error" e), g)
  | .ok f =>
      match lower source f g with
      | (.error e, g) => (.error (.within "lowering error" (.source e)), g)
      | (.ok l, g) => (checked (retarget l.program o.target) o, g)

end KernelAlgebra.Assembly
