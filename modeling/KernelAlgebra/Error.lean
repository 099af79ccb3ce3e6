/-!
# Errors and faults

A construction error has a category and a detail.
-/

namespace KernelAlgebra

inductive ErrorKind where
  | nullOperand
  | sizeMismatch
  | arity
  | range
  | cursorOverrun
  | unsupportedBinding
  | invalidGraph
  deriving DecidableEq, Repr

namespace ErrorKind

/-- All categories in the order of their codes, which start at one. -/
def all : List ErrorKind :=
  [nullOperand, sizeMismatch, arity, range, cursorOverrun, unsupportedBinding, invalidGraph]

def name : ErrorKind → String
  | nullOperand => "NullOperand"
  | sizeMismatch => "SizeMismatch"
  | arity => "Arity"
  | range => "Range"
  | cursorOverrun => "CursorOverrun"
  | unsupportedBinding => "UnsupportedBinding"
  | invalidGraph => "InvalidGraph"

def nameOfCode (code : Nat) : String :=
  match code with
  | 0 => "Unknown"
  | n + 1 =>
      match all[n]? with
      | some k => k.name
      | none => "Unknown"

end ErrorKind

structure Error where
  kind : ErrorKind
  detail : String
  deriving DecidableEq, Repr

def Error.message (e : Error) : String :=
  s!"{e.kind.name}: {e.detail}"

/-- Why an operation has no result: it was refused, or it left its domain. -/
inductive Fault (ε : Type) where
  | error (e : ε)
  | crash (text : String)

/-- A symbol, an element or a node that is not there was needed. -/
def Fault.outside {ε : Type} : Fault ε := .crash "runtime error"

/-! ## Several failures reported as one -/

structure Failures where
  messages : List String
  deriving DecidableEq, Repr

namespace Failures

def none : Failures := ⟨[]⟩

def add (f : Failures) : Option String → Failures
  | some m => ⟨f.messages ++ [m]⟩
  | .none => f

def count (f : Failures) : Nat := f.messages.length

/-- A single failure speaks for itself; more of them are counted and listed. -/
def text (f : Failures) : String :=
  match f.messages with
  | [] => ""
  | [m] => m
  | ms =>
      s!"{ms.length} errors occurred:\n" ++
        String.join (ms.map fun m => s!"\t* {m}\n") ++ "\n"

def wrapped (f : Failures) (outer : String) : String :=
  if f.messages.isEmpty then "" else s!"{outer}: {f.text}"

end Failures

end KernelAlgebra
