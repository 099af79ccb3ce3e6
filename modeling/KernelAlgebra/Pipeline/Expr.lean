import KernelAlgebra.Text.Quote

/-!
# Composition expressions

Kernels by name are joined by operators and operations.
-/

namespace KernelAlgebra.Pipeline

inductive Joint where
  /-- Feeds the outputs of the left kernel into the right one. -/
  | connect
  /-- Feeds the outputs of the right kernel into the left one. -/
  | after
  /-- Feeds outputs into the inputs with the same names. -/
  | connectNamed
  /-- Runs two kernels side by side. -/
  | combine
  /-- Runs two kernels side by side; inputs with the same name become one. -/
  | combineNamed
  deriving DecidableEq, Repr

def Joint.mark : Joint → String
  | connect => ">>"
  | after => "<<"
  | connectNamed => "~>"
  | combine => "&"
  | combineNamed => "~&"

inductive Expr where
  /-- A kernel; as an argument also a channel. -/
  | ref (name : String)
  | number (value : Int)
  | quoted (value : Text)
  | binary (joint : Joint) (left right : Expr)
  | call (name : String) (args : List Expr)
  deriving Repr

namespace Expr

mutual

def text : Expr → String
  | ref name => name
  | number value => toString value
  | quoted value => Text.quotedText value
  | binary joint left right => s!"({left.text} {joint.mark} {right.text})"
  | call name args => name ++ "(" ++ String.intercalate ", " (texts args) ++ ")"

def texts : List Expr → List String
  | [] => []
  | e :: rest => e.text :: texts rest

end

end Expr

end KernelAlgebra.Pipeline
