import KernelAlgebra.Error
import KernelAlgebra.Number.Layout
import KernelAlgebra.Text.Quote
import KernelAlgebra.Total

/-!
# Counters of composition operations

A counter is a name with labelled series.  A series exists once it has been touched, even by
adding nothing.
-/

namespace KernelAlgebra

structure Sample where
  name : String
  /-- Label names and values, sorted by name. -/
  labels : List (String × String)
  count : Nat
  deriving DecidableEq, Repr

namespace Sample

def labelText (l : String × String) : String := l.1 ++ "=" ++ Text.quoted l.2

def text (s : Sample) : String :=
  s.name ++ "\x7b" ++ String.intercalate "," (s.labels.map labelText) ++ "\x7d " ++
    Number.text (Float.ofNat s.count)

def before (s t : Sample) : Bool :=
  if s.name = t.name then !(decide (t.text < s.text)) else decide (s.name < t.name)

/-- Whether the sample has every one of these labels; a label it lacks counts as empty. -/
def agrees (s : Sample) (labels : List (String × String)) : Bool :=
  labels.all fun l => (s.labels.lookup l.1).getD "" == l.2

end Sample

structure Metrics where
  samples : List Sample
  deriving DecidableEq, Repr

namespace Metrics

def empty : Metrics := ⟨[]⟩

def add (m : Metrics) (name : String) (labels : List (String × String)) (n : Nat) : Metrics :=
  if m.samples.any fun s => s.name = name && s.labels = labels then
    ⟨m.samples.map fun s =>
      if s.name = name && s.labels = labels then { s with count := s.count + n } else s⟩
  else ⟨m.samples ++ [⟨name, labels, n⟩]⟩

def compositions : String := "kernel_composition_total"

def errors : String := "kernel_composition_errors_total"

def instructions : String := "kernel_composed_instructions_total"

def countFailure (m : Metrics) (op : String) (kind : ErrorKind) : Metrics :=
  (m.add compositions [("errorful", "true"), ("op", op)] 1).add
    errors [("kind", kind.name), ("op", op)] 1

def countSuccess (m : Metrics) (op : String) (size : Option Nat) : Metrics :=
  let counted := m.add compositions [("errorful", "false"), ("op", op)] 1
  match size with
  | some n => counted.add instructions [("op", op)] n
  | none => counted

def sorted (m : Metrics) : List Sample := m.samples.mergeSort Sample.before

def lines (m : Metrics) : List String := m.sorted.map Sample.text

def value (m : Metrics) (name : String) (labels : List (String × String)) : Nat :=
  total ((m.samples.filter fun s => s.name = name && s.agrees labels).map Sample.count)

end Metrics

end KernelAlgebra
