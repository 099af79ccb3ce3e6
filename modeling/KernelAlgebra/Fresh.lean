import KernelAlgebra.Program.Renaming

/-!
# Computations that draw fresh symbols

Such a computation may be refused, with an error of its own, or leave its domain, for instance
at a hole where it needs a symbol.  What was drawn before stays drawn in any case.
-/

namespace KernelAlgebra

abbrev Fresh (ε : Type) := ExceptT (Fault ε) (StateM Supply)

namespace Fresh

variable {ε α : Type}

def refuse (e : ε) : Fresh ε α := throw (.error e)

def crash : Fresh ε α := throw .outside

def present : Option α → Fresh ε α
  | some a => return a
  | none => crash

def ofExcept : Except (Fault ε) α → Fresh ε α
  | .ok a => return a
  | .error f => throw f

def copy (s : Symbol) (role : Role) : Fresh ε Symbol := do
  if s.isHole then crash
  else
    let (t, g) := (← get).copy s role
    set g
    return t

def copyAll (role : Symbol → Role) (list : List Symbol) : Fresh ε (List Symbol) := do
  let (ts, g) := (← get).copyAll role (list.takeWhile (!·.isHole))
  set g
  if list.any (·.isHole) then crash else return ts

def renamed (s : Symbol) (name : String) : Fresh ε Symbol := do
  let (t, g) := (← get).rename s name
  set g
  return t

def copyOf (s : Sketch) : Fresh ε Program := do
  return (← present s.program?).copied

def freshCopyOf (s : Sketch) : Fresh ε Program := do
  let p ← present s.program?
  return p.withLocals (← copyAll Symbol.role p.locals)

end Fresh

end KernelAlgebra
