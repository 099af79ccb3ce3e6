/-!
# Opcodes and their operand rules
-/

namespace KernelAlgebra

inductive SizeRule where
  | none
  /-- Every source has one element or as many as the destination. -/
  | elementwise
  /-- One element from two sources of equal size. -/
  | dot
  /-- Three elements throughout. -/
  | cross
  /-- As many elements as the source. -/
  | norm
  /-- The first source is a texture. -/
  | tex
  /-- A single source and no destination. -/
  | kill
  deriving DecidableEq, Repr

def SizeRule.code : SizeRule → Nat
  | .none => 0
  | .elementwise => 1
  | .dot => 2
  | .cross => 3
  | .norm => 4
  | .tex => 5
  | .kill => 6

inductive Op where
  | nop | asn | add | mul | div | mod | min | max | pow
  | slt | sle | sgt | sge | seq | sne
  | abs | ceil | flr | frac | exp | log | sqrt | rsq | rcp | sin | cos | tan | sgn
  | mad | lrp | cond
  | dot | xpd | norm | tex | kil
  | unknown (code : Nat)
  deriving DecidableEq, Repr

namespace Op

/-- The known opcodes in the order of their codes. -/
def all : List Op :=
  [nop, asn, add, mul, div, mod, min, max, pow,
   slt, sle, sgt, sge, seq, sne,
   abs, ceil, flr, frac, exp, log, sqrt, rsq, rcp, sin, cos, tan, sgn,
   mad, lrp, cond,
   dot, xpd, norm, tex, kil]

def ofCode (code : Nat) : Op :=
  (all[code]?).getD (unknown code)

def isKnown : Op → Bool
  | unknown _ => false
  | _ => true

def name : Op → String
  | nop => "nop" | asn => "asn" | add => "add" | mul => "mul" | div => "div" | mod => "mod"
  | min => "min" | max => "max" | pow => "pow"
  | slt => "slt" | sle => "sle" | sgt => "sgt" | sge => "sge" | seq => "seq" | sne => "sne"
  | abs => "abs" | ceil => "ceil" | flr => "flr" | frac => "frac" | exp => "exp" | log => "log"
  | sqrt => "sqrt" | rsq => "rsq" | rcp => "rcp" | sin => "sin" | cos => "cos" | tan => "tan"
  | sgn => "sgn"
  | mad => "mad" | lrp => "lrp" | cond => "cond"
  | dot => "dot" | xpd => "xpd" | norm => "norm" | tex => "tex" | kil => "kil"
  | unknown _ => "op?"

def ofName? (s : String) : Option Op :=
  all.find? (·.name == s)

def rule : Op → SizeRule
  | nop | unknown _ => .none
  | dot => .dot
  | xpd => .cross
  | norm => .norm
  | tex => .tex
  | kil => .kill
  | _ => .elementwise

def arity : Op → Nat
  | nop | unknown _ => 0
  | asn | abs | ceil | flr | frac | exp | log | sqrt | rsq | rcp | sin | cos | tan | sgn
  | norm | kil => 1
  | mad | lrp | cond => 3
  | _ => 2

def hasDst : Op → Bool
  | nop | kil | unknown _ => false
  | _ => true

def hasSideEffect : Op → Bool
  | kil => true
  | _ => false

end Op

end KernelAlgebra
