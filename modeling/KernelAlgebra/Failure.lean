import KernelAlgebra.Assembly.SourceError
import KernelAlgebra.Machine
import KernelAlgebra.Validation

/-!
# Failures of whole operations

A failure says what went wrong, behind any number of outer messages.
-/

namespace KernelAlgebra

inductive Failure where
  | construction (e : Error)
  | run (e : Machine.RunError)
  | source (e : Assembly.SourceError)
  | sources (es : List Assembly.SourceError)
  | combined (fs : Failures)
  | invalid (i : Issue)
  | other (text : String)
  | within (outer : String) (inner : Failure)
  /-- Not an error but the end of the operation: a request outside its domain. -/
  | crash (text : String)

namespace Failure

def message : Failure → String
  | construction e => e.message
  | run e => e.message
  | source e => e.message
  | sources es => Assembly.SourceError.messageOfAll es
  | combined fs => fs.text
  | invalid i => i.message
  | other text => text
  | within outer inner => s!"{outer}: {inner.message}"
  | crash text => text

def core : Failure → Failure
  | within _ inner => inner.core
  | f => f

def errorKind? (f : Failure) : Option ErrorKind :=
  match f.core with
  | construction e => some e.kind
  | source e => e.cause.map Error.kind
  | _ => none

def context? (f : Failure) : Option String :=
  match f.core with
  | source e => some e.withContext
  | sources es => some (Assembly.SourceError.contextOfAll es)
  | _ => none

def ofGraphFault (f : GraphFault) : Failure := .crash f.message

end Failure

end KernelAlgebra
