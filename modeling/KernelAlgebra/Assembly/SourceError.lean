import KernelAlgebra.Assembly.Token
import KernelAlgebra.Error
import KernelAlgebra.Text.Pad

/-!
# Errors with a place in the source
-/

namespace KernelAlgebra.Assembly

structure SourceError where
  detail : String
  span : Span
  source : Text
  cause : Option Error
  deriving DecidableEq

namespace SourceError

def message (e : SourceError) : String :=
  if e.span.start.line = 0 then e.detail
  else s!"{e.span.start.line}:{e.span.start.column}: {e.detail}"

/-- The column of the caret: inside the line or right behind it. -/
def caretColumn (column : Int) (line : Text) : Nat :=
  (min (max column 1) (line.byteLength + 1)).toNat

def withContext (e : SourceError) : String :=
  let number := e.span.start.line
  if e.source.isEmpty || number = 0 then e.message
  else
    match e.source.lines[number - 1]? with
    | none => e.message
    | some line =>
        let column := caretColumn e.span.start.column line
        s!"error: {e.detail}\n" ++
          s!"  --> line {number}:{column}\n" ++
          "   |\n" ++
          s!"{Text.padLeft 3 (toString number)}| {line.shown}\n" ++
          s!"   | {Text.blanks (column - 1)}^\n"

def messageOfAll : List SourceError → String
  | [] => "no errors"
  | [e] => e.message
  | e :: rest => s!"{e.message} (and {rest.length} more errors)"

def contextOfAll (es : List SourceError) : String :=
  String.intercalate "\n" (es.map withContext)

end SourceError

end KernelAlgebra.Assembly
