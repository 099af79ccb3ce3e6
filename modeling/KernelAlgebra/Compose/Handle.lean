import KernelAlgebra.Builder
import KernelAlgebra.Fresh

/-!
# Handles

A handle is a program together with bindings of its leading inputs.  Binding `i` feeds input
`i`; the inputs behind the bound ones are free.  A handle never changes, and two handles may
share a program with different bindings.
-/

namespace KernelAlgebra

inductive BindingKind where
  | uniform
  | stream
  | other (code : Nat)
  deriving DecidableEq, Repr

namespace BindingKind

def ofCode : Nat → BindingKind
  | 0 => uniform
  | 1 => stream
  | n => other n

def name : BindingKind → String
  | uniform => "uniform"
  | stream => "stream"
  | other code => s!"binding({code})"

def isKnown : BindingKind → Bool
  | other _ => false
  | _ => true

def takes : BindingKind → Role → Bool
  | uniform, .uniform | uniform, .const | stream, .stream => true
  | _, _ => false

end BindingKind

structure Binding where
  kind : BindingKind
  source : Symbol
  deriving DecidableEq

structure Handle where
  /-- Tells apart handles that are alike otherwise. -/
  tag : Nat
  /-- Tells apart programs that are alike otherwise; handles may share one. -/
  origin : Nat
  sketch : Sketch
  bindings : List Binding
  /--
  The places behind the inputs.  A list that gets shorter because inputs coincide leaves
  places behind, and a binding may still stand for one of them.
  -/
  spare : List Symbol
  deriving DecidableEq

inductive ComposeError where
  | missing (what : String)
  | connectSizes (index : Nat) (output input : Symbol)
  | inputIndex (index : Int) (count : Nat)
  | inputTwice (index : Int) (input : Symbol)
  | outputIndex (index : Int) (count : Nat)
  | tooManySources (sources free : Nat)
  | bindingRole (source : Symbol) (kind : BindingKind)
  | bindingSize (source input : Symbol)
  | boundToStream (input source : Symbol)
  | replacementSize (old new : Symbol)
  | recordSizes (index : Nat) (source destination : Symbol)
  | streamsInAssignment (summary : String)
  | argumentCount (summary : String) (free arguments : Nat)
  | resultCount (summary : String) (outputs elements : Nat)
  | argumentSize (index : Nat) (argument input : Symbol)
  | resultSize (index : Nat) (output element : Symbol)
  | negativeCount (manipulator : String) (count : Int)
  | overrun (manipulator : String) (wanted : Int) (cursor remaining : Int)
  | unequalDuplicates (manipulator : String) (input first : Symbol)
  | refused (e : Error)

namespace ComposeError

def kind : ComposeError → ErrorKind
  | missing _ => .nullOperand
  | connectSizes .. | bindingSize .. | replacementSize .. | recordSizes ..
  | argumentSize .. | resultSize .. | unequalDuplicates .. => .sizeMismatch
  | inputIndex .. | inputTwice .. | outputIndex .. | tooManySources .. | negativeCount .. => .range
  | bindingRole .. | boundToStream .. | streamsInAssignment _ | argumentCount .. =>
      .unsupportedBinding
  | resultCount .. => .arity
  | overrun .. => .cursorOverrun
  | refused e => e.kind

def detail : ComposeError → String
  | missing what => what
  | connectSizes i o n =>
      s!"cannot connect output {i} ({o.describe}) to input {i} ({n.describe})"
  | inputIndex i n => s!"input index {i} out of range ({n} free inputs)"
  | inputTwice i s => s!"input {i} ({s.label}) selected twice"
  | outputIndex i n => s!"output index {i} out of range ({n} outputs)"
  | tooManySources n free => s!"cannot bind {n} sources: only {free} free inputs"
  | bindingRole s k => s!"cannot bind {s.describe} as a {k.name}"
  | bindingSize s n => s!"cannot bind {s.describe} to input {n.describe}"
  | boundToStream n s => s!"input {n.label} is bound to stream {s.label}"
  | replacementSize old new => s!"cannot replace {old.describe} with {new.describe}"
  | recordSizes i s d => s!"record element {i}: cannot assign {s.describe} to {d.describe}"
  | streamsInAssignment h => s!"cannot assign {h}: it has stream bindings"
  | argumentCount h free n => s!"cannot assign {h}: {free} free inputs, {n} arguments"
  | resultCount h outputs n => s!"cannot assign {h}: {outputs} outputs, record has {n} elements"
  | argumentSize i a n => s!"argument {i}: cannot feed {a.describe} to {n.describe}"
  | resultSize i o e => s!"record element {i}: cannot capture {o.describe} into {e.describe}"
  | negativeCount m n => s!"{m}: negative channel count {n}"
  | overrun m n at_ remaining => s!"{m}: needs {n} channels at {at_}, only {remaining} remain"
  | unequalDuplicates m s first => s!"{m}: cannot feed {s.describe} from {first.describe}"
  | refused e => e.detail

def toError (e : ComposeError) : Error := ⟨e.kind, e.detail⟩

end ComposeError

namespace Handle

def free (h : Handle) : List Symbol := h.sketch.inputs.drop h.bindings.length

/-- The free inputs; there are none to speak of when bindings outnumber the inputs. -/
def freeInputs (h : Handle) : Fresh ComposeError (List Symbol) :=
  if h.bindings.length ≤ h.sketch.inputs.length then return h.free else Fresh.crash

def curried? (h : Handle) : Option (List Symbol) :=
  let places := h.sketch.inputs ++ h.spare
  if h.bindings.length ≤ places.length then some (places.take h.bindings.length) else none

/-- A list of symbols that is copied gets one of these numbers of places. -/
def roomSizes : List Nat :=
  [0, 1, 2, 3, 4, 6, 8, 10, 12, 14, 16, 18, 20, 22, 24, 26, 28, 30, 32, 36, 40, 44, 48, 52, 56,
   60, 64, 72, 80, 88, 96, 112, 128, 144, 160, 176, 192, 224, 256]

def room (n : Nat) : Nat := (roomSizes.find? (n ≤ ·)).getD n

def spareAfter (m : Renaming) (inputs : List Symbol) : List Symbol :=
  let list := inputs.map m.apply
  list.drop (dedup list).length ++ List.replicate (room list.length - list.length) Symbol.hole

/-- The number of free inputs, negative when bindings outnumber the inputs. -/
def freeCount (h : Handle) : Int :=
  (h.sketch.inputs.length : Int) - h.bindings.length

def outputs (h : Handle) : List Symbol := h.sketch.outputs

def hasStreams (h : Handle) : Bool := h.bindings.any (·.kind = .stream)

/-- Every input is bound, and at least one of them to a stream. -/
def isStreamBound (h : Handle) : Bool := h.freeCount = 0 && h.hasStreams

def summary (h : Handle) : String := s!"{h.sketch.summary}, {h.bindings.length} bound"

/-! ## Binding -/

def bindingsFor (kind : BindingKind) :
    List Symbol → List Symbol → Except (Fault ComposeError) (List Binding)
  | s :: sources, n :: free =>
      if s.isHole && kind.isKnown then .error .outside
      else if !kind.takes s.role then .error (.error (.bindingRole s kind))
      else if n.isHole then .error .outside
      else if s.size != n.size then .error (.error (.bindingSize s n))
      else (bindingsFor kind sources free).map (⟨kind, s⟩ :: ·)
  | _, _ => .ok []

def boundTo (h : Handle) (kind : BindingKind) (sources : List Symbol) :
    Fresh ComposeError (List Binding) := do
  let free ← h.freeInputs
  if free.length < sources.length then
    Fresh.refuse (.tooManySources sources.length free.length)
  else
    return h.bindings ++ (← Fresh.ofExcept (bindingsFor kind sources free))

/-! ## Resolving -/

/-- The symbol that takes the place of a bound input: an output if the input is one too. -/
def resolvedRole (s : Symbol) : Role := if s.isInOut then .output else .temp

/-- Fresh symbols for the bound inputs, each assigned from its source. -/
def resolveBindings : List Symbol → List Binding → Fresh ComposeError (Renaming × Block)
  | _, [] => return ([], [])
  | [], _ :: _ => Fresh.crash
  | s :: inputs, b :: bindings => do
      if b.kind != .uniform then Fresh.refuse (.boundToStream s b.source)
      else
        let r ← Fresh.copy s (resolvedRole s)
        match Instruction.assign (View.full r) (View.full b.source) with
        | .error e => Fresh.refuse (.refused e.toError)
        | .ok a =>
            let (m, block) ← resolveBindings inputs bindings
            return (m ++ [(s, r)], a :: block)

/--
The program in which every uniform binding has become an assignment at the entry, so that
bound inputs leave the interface.
-/
def resolve (h : Handle) : Fresh ComposeError Program := do
  let p ← Fresh.copyOf h.sketch
  if h.bindings.isEmpty then return p
  else
    let (m, prologue) ← resolveBindings p.inputs h.bindings
    let q := { p with inputs := p.inputs.drop h.bindings.length }.rename m
    let g := q.graph.prependEntry.setBlock q.graph.size prologue
    return { q with graph := g }.collect

end Handle

end KernelAlgebra
