import KernelAlgebra.Error
import KernelAlgebra.Symbol

/-!
# Views

A view is a selection of a symbol's elements, possibly negated.  Without a selector it shows
every element in order.  A selector lists element indices; it may repeat them in a source and
acts as a write mask in a destination.  A view of the hole stands for an absent operand.
-/

namespace KernelAlgebra

structure View where
  sym : Symbol
  selector : Option (List Int)
  neg : Bool
  deriving DecidableEq

inductive OperandError where
  | unknownOpcode (code : Nat)
  | wrongCount (op : String) (expected actual : Nat)
  | missingDestination (op : String)
  | superfluousDestination (op : String)
  | missingSource (op : String) (index : Nat)
  | emptySelection (sym : Symbol)
  | indexOutside (index : Int) (sym : Symbol)
  | repeatedElement (index : Int) (sym : Symbol)
  | negatedDestination (sym : Symbol)
  | sourceSize (op : String) (index : Nat) (src dst : View)
  | dotDestination (dst : View)
  | dotSources (a b : View)
  | crossSizes (dst a b : View)
  | normSizes (dst src : View)
  | notATexture (sym : Symbol)

namespace View

def full (s : Symbol) : View := ⟨s, none, false⟩

def absent : View := full .hole

def isAbsent (v : View) : Bool := v.sym.isHole

def size (v : View) : Nat :=
  if v.isAbsent then 0
  else
    match v.selector with
    | some idx => idx.length
    | none => v.sym.size

def index? (v : View) (i : Int) : Option Int :=
  match v.selector with
  | some idx => if i < 0 then none else idx[i.toNat]?
  | none => some i

def elements (v : View) : List Int :=
  if v.isAbsent then []
  else
    match v.selector with
    | some idx => idx
    | none => (List.range v.sym.size).map Int.ofNat

@[simp] theorem length_elements (v : View) : v.elements.length = v.size := by
  unfold elements size
  split
  · rfl
  · split <;> simp_all

def select? (v : View) (idx : List Int) : Option View := do
  let inner ← idx.mapM v.index?
  return { v with selector := some inner }

/-- A copy of the view.  A selector without elements does not survive copying. -/
def copied (v : View) : View :=
  match v.selector with
  | some [] => { v with selector := none }
  | _ => v

def negated (v : View) : View := { v.copied with neg := !v.neg }

def isIdentity (v : View) : Bool :=
  !v.neg &&
    match v.selector with
    | none => true
    | some idx => idx = (List.range v.sym.size).map Int.ofNat

/-- Whether writing through the view overwrites every element. -/
def covers (v : View) : Bool :=
  match v.selector with
  | none => true
  | some idx => (List.range v.sym.size).all fun (k : Nat) => idx.contains (k : Int)

/-- Repeated elements of a write mask are noticed below this index. -/
def maskLimit : Int := 64

def checkIndices (dst : Bool) (s : Symbol) (seen : List Int) : List Int → Except OperandError Unit
  | [] => .ok ()
  | k :: rest =>
      if k < 0 || (s.size : Int) ≤ k then .error (.indexOutside k s)
      else if dst && seen.contains k && k < maskLimit then .error (.repeatedElement k s)
      else checkIndices dst s (k :: seen) rest

def check (dst : Bool) (v : View) : Except OperandError Unit :=
  match v.selector with
  | some [] => .error (.emptySelection v.sym)
  | selector =>
      match checkIndices dst v.sym [] (selector.getD []) with
      | .error e => .error e
      | .ok () => if dst && v.neg then .error (.negatedDestination v.sym) else .ok ()

def selectorLetters : List Char := ['x', 'y', 'z', 'w']

def colorLetters : List Char := ['r', 'g', 'b', 'a']

def letter (k : Int) : Char :=
  if k < 0 then '?' else (selectorLetters[k.toNat]?).getD '?'

def text (v : View) : String :=
  (if v.neg then "-" else "") ++ v.sym.label ++
    match v.selector with
    | none => ""
    | some idx => "." ++ String.ofList (idx.map letter)

end View

inductive SelectorError where
  | empty
  | invalid (text : String)
  deriving DecidableEq, Repr

def SelectorError.toError : SelectorError → Error
  | .empty => ⟨.range, "empty swizzle"⟩
  | .invalid text => ⟨.range, s!"invalid swizzle {Text.quoted text}"⟩

/-- Reads a selector in the letters `xyzw`, or in `rgba` when it starts with one of those. -/
def readSelector (s : String) : Except SelectorError (List Int) :=
  match s.toList with
  | [] => .error .empty
  | c :: rest =>
      let letters :=
        if View.colorLetters.contains c then View.colorLetters else View.selectorLetters
      match (c :: rest).mapM fun x => letters.idxOf? x with
      | some idx => .ok (idx.map Int.ofNat)
      | none => .error (.invalid s)

namespace OperandError

def kind : OperandError → ErrorKind
  | unknownOpcode _ | wrongCount .. | missingDestination _ | superfluousDestination _
  | missingSource .. | negatedDestination _ | notATexture _ => .arity
  | emptySelection _ | indexOutside .. | repeatedElement .. => .range
  | sourceSize .. | dotDestination _ | dotSources .. | crossSizes .. | normSizes .. =>
      .sizeMismatch

def detail : OperandError → String
  | unknownOpcode code => s!"unknown opcode {code}"
  | wrongCount op expected actual =>
      s!"{op} takes {expected} source operands, got {actual}"
  | missingDestination op => s!"{op} requires a destination"
  | superfluousDestination op => s!"{op} takes no destination"
  | missingSource op index => s!"{op}: source {index} is missing"
  | emptySelection s => s!"empty swizzle on {s.label}"
  | indexOutside k s => s!"swizzle index {k} out of range for {s.describe}"
  | repeatedElement k s => s!"write mask repeats element {k} of {s.label}"
  | negatedDestination s => s!"destination {s.label} is negated"
  | sourceSize op i src dst =>
      s!"{op}: source {i} ({src.text}) has {src.size} elements, " ++
        s!"destination {dst.text} has {dst.size}"
  | dotDestination dst =>
      s!"dot: destination {dst.text} must have one element, has {dst.size}"
  | dotSources a b =>
      s!"dot: sources {a.text} and {b.text} differ in size ({a.size} != {b.size})"
  | crossSizes dst a b =>
      s!"xpd: operands must have three elements ({dst.text}, {a.text}, {b.text})"
  | normSizes dst src =>
      s!"norm: destination {dst.text} has {dst.size} elements, " ++
        s!"source {src.text} has {src.size}"
  | notATexture s => s!"tex: source 0 must be a texture, got {s.describe}"

def toError (e : OperandError) : Error := ⟨e.kind, e.detail⟩

end OperandError

end KernelAlgebra
