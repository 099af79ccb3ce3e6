import KernelAlgebra.Binding.Attribute
import KernelAlgebra.Failure
import KernelAlgebra.Number.Layout
import KernelAlgebra.Shader.Version

/-!
# Instructions as statements of the shading language
-/

namespace KernelAlgebra

namespace Shader

inductive ShaderError where
  | missing (what : String)
  | interface (e : AttributeError)
  | otherBackend (t : Target)
  | computeVersion (v : Version)
  | scalarType (s : Symbol)
  | tooWide (s : Symbol)
  | noStorage (s : Symbol) (v : Version)
  | coordinateCount (texture : Symbol) (count : Nat)
  | oneDimensional (texture : Symbol)
  | mixedCoordinates (texture : Symbol) (first second : Nat)
  | killOutsideFragment (stage : Stage)
  | noForm (op : Op)
  | crash
  | fault (f : GraphFault)

namespace ShaderError

def toError? : ShaderError → Option Error
  | missing what => some ⟨.nullOperand, what⟩
  | interface e => some e.toError
  | otherBackend t => some ⟨.unsupportedBinding, s!"cannot emit {t.text} programs"⟩
  | computeVersion v =>
      some ⟨.unsupportedBinding, s!"compute kernels need GLSL 430 or 310 es, got {v.text}"⟩
  | scalarType s =>
      some ⟨.unsupportedBinding,
        s!"{s.describe}: {s.scalar.name} elements have no GLSL float type"⟩
  | tooWide s =>
      some ⟨.unsupportedBinding,
        s!"{s.describe} has {s.size} elements, vectors have at most 4"⟩
  | noStorage s v =>
      some ⟨.unsupportedBinding,
        s!"stream {s.name} needs storage buffers, not available in GLSL {v.text}"⟩
  | coordinateCount t n =>
      some ⟨.sizeMismatch,
        s!"texture {t.name} sampled with {n} coordinates, at most 3 are supported"⟩
  | oneDimensional t =>
      some ⟨.unsupportedBinding, s!"texture {t.name}: GLSL ES has no one-dimensional samplers"⟩
  | mixedCoordinates t n m =>
      some ⟨.sizeMismatch, s!"texture {t.name} sampled with both {n} and {m} coordinates"⟩
  | killOutsideFragment stage =>
      some ⟨.unsupportedBinding,
        s!"kill in a {stage.name} kernel, only fragment kernels can discard"⟩
  | noForm op => some ⟨.arity, s!"no GLSL form for {op.name}"⟩
  | crash | fault _ => none

def toFailure (e : ShaderError) : Failure :=
  match e.toError?, e with
  | some e, _ => .within "glsl" (.construction e)
  | none, fault f => .crash f.message
  | none, _ => .crash "runtime error"

end ShaderError

abbrev Names := List (Symbol × String)

def Names.of (names : Names) (s : Symbol) : String := (names.lookup s).getD ""

def typeName (n : Nat) : String := if n = 1 then "float" else s!"vec{n}"

def zero (n : Nat) : String := if n = 1 then "0.0" else s!"{typeName n}(0.0)"

/-- A number with a point or an exponent, in single precision. -/
def numberText (x : Float) : String :=
  let s := Number.singleText x
  if s.toList.any fun c => c = '.' || c = 'e' || c = 'E' then s else s ++ ".0"

def literal (values : List Float) (n : Nat) : String :=
  let parts := (Machine.padded n values).map numberText
  if n = 1 then String.join parts
  else s!"{typeName n}(" ++ String.intercalate ", " parts ++ ")"

/-! ## Views -/

def letters (n : Nat) : String := String.ofList (View.selectorLetters.take n)

def elementLetter (k : Int) : Except ShaderError Char :=
  match (if k < 0 then none else View.selectorLetters[k.toNat]?) with
  | some c => .ok c
  | none => .error .crash

def selectorText (v : View) : Except ShaderError String :=
  (v.elements.mapM elementLetter).map String.ofList

def selectsAll (v : View) : Bool := { v with neg := false }.isIdentity

/-- The selected elements; a scalar cannot be swizzled, so its repeats need a constructor. -/
def selectExpr (names : Names) (v : View) : Except ShaderError String :=
  let name := names.of v.sym
  if v.isAbsent then .error .crash
  else if v.sym.size = 1 then
    .ok (if 1 < v.size then s!"{typeName v.size}({name})" else name)
  else if selectsAll v then .ok name
  else (selectorText v).map fun sel => s!"{name}.{sel}"

def viewExpr (names : Names) (n : Nat) (v : View) : Except ShaderError String :=
  (selectExpr names v).map fun e =>
    (if v.neg then "-" else "") ++ if v.size = 1 && 1 < n then s!"{typeName n}({e})" else e

def dstExpr (names : Names) (v : View) : Except ShaderError String :=
  let name := names.of v.sym
  if v.isAbsent then .error .crash
  else if v.sym.size = 1 || selectsAll v then .ok name
  else (selectorText v).map fun sel => s!"{name}.{sel}"

def conditionExpr (names : Names) (v : View) : Except ShaderError String :=
  let sign := if v.neg then "-" else ""
  let name := names.of v.sym
  if v.isAbsent then .error .crash
  else if v.sym.size ≤ 1 then .ok (sign ++ name)
  else
    match v.index? 0 with
    | none => .error .crash
    | some k => (elementLetter k).map fun c => s!"{sign}{name}.{c}"

/-! ## Instructions -/

def functionName? : Op → Option String
  | .abs => some "abs" | .ceil => some "ceil" | .flr => some "floor" | .frac => some "fract"
  | .exp => some "exp" | .log => some "log" | .sqrt => some "sqrt"
  | .rsq => some "inversesqrt" | .sin => some "sin" | .cos => some "cos" | .tan => some "tan"
  | .sgn => some "sign" | .min => some "min" | .max => some "max" | .pow => some "pow"
  | .xpd => some "cross" | .norm => some "normalize"
  | _ => none

def operator? : Op → Option String
  | .add => some "+"
  | .mul => some "*"
  | .div => some "/"
  | _ => none

/-- The operator on scalars and the function on vectors of a comparison. -/
def comparison? : Op → Option (String × String)
  | .slt => some ("<", "lessThan")
  | .sle => some ("<=", "lessThanEqual")
  | .sgt => some (">", "greaterThan")
  | .sge => some (">=", "greaterThanEqual")
  | .seq => some ("==", "equal")
  | .sne => some ("!=", "notEqual")
  | _ => none

def specialExpr (op : Op) (n : Nat) (srcs : List String) : Except ShaderError String :=
  match op, srcs with
  | .asn, [a] => .ok a
  | .mod, [a, b] => .ok s!"({a} - {b} * trunc({a} / {b}))"
  | .rcp, [a] => .ok s!"(1.0 / {a})"
  | .mad, [a, b, c] => .ok s!"({a} * {b} + {c})"
  | .lrp, [a, b, c] => .ok s!"mix({c}, {b}, {a})"
  | .cond, [a, b, c] =>
      if n = 1 then .ok s!"({a} > 0.0 ? {b} : {c})"
      else
        let vec := typeName n
        .ok s!"mix({c}, {b}, {vec}(greaterThan({a}, {vec}(0.0))))"
  | op, _ => .error (.noForm op)

def elementwiseExpr (op : Op) (n : Nat) (srcs : List String) : Except ShaderError String :=
  match functionName? op, operator? op, comparison? op, srcs with
  | some f, _, _, _ => .ok (s!"{f}(" ++ String.intercalate ", " srcs ++ ")")
  | _, some o, _, [a, b] => .ok s!"({a} {o} {b})"
  | _, _, some (o, f), [a, b] =>
      if n = 1 then .ok s!"float({a} {o} {b})" else .ok s!"{typeName n}({f}({a}, {b}))"
  | _, _, _, _ => specialExpr op n srcs

def instructionExpr (names : Names) (i : Instruction) : Except ShaderError String := do
  let n := i.dst.size
  match i.op, i.src with
  | .dot, [a, b] =>
      let x ← viewExpr names a.size a
      let y ← viewExpr names a.size b
      return s!"dot({x}, {y})"
  | .tex, [t, coord] =>
      let at_ ← viewExpr names coord.size coord
      let e := s!"texture({names.of t.sym}, {at_})"
      return if n < 4 then s!"{e}.{letters n}" else e
  | op, srcs => elementwiseExpr op n (← srcs.mapM (viewExpr names n))

def killStatement (names : Names) (stage : Stage) (src : View) : Except ShaderError String := do
  if stage != .fragment then throw (.killOutsideFragment stage)
  else
    let k := max 1 src.size
    let e ← viewExpr names k src
    return if 1 < k then s!"if (any(lessThan({e}, {zero k}))) discard;"
      else s!"if ({e} < 0.0) discard;"

def statement (names : Names) (stage : Stage) (i : Instruction) :
    Except ShaderError (List String) := do
  match i.op with
  | .nop => return []
  | .kil => return [← killStatement names stage (i.src.head?.getD View.absent)]
  | _ =>
      let e ← instructionExpr names i
      let dst ← dstExpr names i.dst
      return [s!"{dst} = {e};"]

end Shader

end KernelAlgebra
