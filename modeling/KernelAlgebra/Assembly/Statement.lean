import KernelAlgebra.Assembly.Token
import KernelAlgebra.Op

/-!
# Kernel assembly files as statements
-/

namespace KernelAlgebra.Assembly

inductive Operand where
  | ref (name selector : String) (neg : Bool) (span : Span)
  | literal (values : List Float) (span : Span)
  deriving DecidableEq

def Operand.span : Operand → Span
  | .ref _ _ _ s => s
  | .literal _ s => s

structure DeclStatement where
  role : Role
  name : String
  size : Nat
  semantic : String
  scalar : String
  values : List Float
  span : Span
  deriving DecidableEq

inductive Statement where
  | decl (d : DeclStatement)
  | instr (op : Op) (dst : Operand) (srcs : List Operand) (span : Span)
  | kill (src : Operand) (span : Span)
  | openIf (cond : Operand) (span : Span)
  | openElse (span : Span)
  | closeIf (span : Span)
  | openWhile (cond : Operand) (span : Span)
  | closeWhile (span : Span)
  deriving DecidableEq

def Statement.span : Statement → Span
  | .decl d => d.span
  | .instr _ _ _ s => s
  | .kill _ s => s
  | .openIf _ s => s
  | .openElse s => s
  | .closeIf s => s
  | .openWhile _ s => s
  | .closeWhile s => s

structure File where
  /-- Backend and stage, or empty without a target line. -/
  target : String
  targetSpan : Span
  statements : List Statement
  deriving DecidableEq

def File.empty : File := ⟨"", Span.unset, []⟩

end KernelAlgebra.Assembly
