import KernelAlgebra.Compose.Channels
import KernelAlgebra.Selection.Index

/-!
# Fixed manipulators

A fixed manipulator stands for a program that handles a known number of channels.  It consumes
channels from a cursor on and yields a program for them.  In front of another program the
outputs of that one feed the inputs that were consumed; behind one its inputs read the outputs.
-/

namespace KernelAlgebra

namespace Selection

inductive Fixed where
  /-- Passes channels on. -/
  | keep (n : Int)
  /-- Leaves inputs unfed, or drops outputs. -/
  | lose (n : Int)
  /-- Reads one channel and writes copies of it. -/
  | dup (n : Int)
  | wrap (h : Option Handle)
  | tree (children : List Fixed)

/-- Whether a manipulator stands in front of a program or behind it. -/
inductive Side where
  | inputs
  | outputs
  deriving DecidableEq, Repr

namespace Fixed

mutual

def text : Fixed → String
  | keep n => s!"keep({n})"
  | lose n => s!"lose({n})"
  | dup n => s!"dup({n})"
  | wrap (some h) => s!"wrap({h.summary})"
  | wrap none => "wrap(<nil>)"
  | tree children => String.intercalate " & " (texts children)

def texts : List Fixed → List String
  | [] => []
  | f :: rest => f.text :: texts rest

end

def take (vars : List Symbol) (cursor : Nat) (n : Int) (name : String) :
    Compose (List Symbol) :=
  if n < 0 then Compose.refuse (.negativeCount name n)
  else
    let stop := word (cursor + n)
    if (vars.length : Int) < stop then
      Compose.refuse (.overrun name n cursor ((vars.length : Int) - cursor))
    else if stop < cursor then throw .outside
    else return (vars.drop cursor).take n.toNat

def checkCopies (name : String) (first : Symbol) : List Symbol → Except (Fault ComposeError) Unit
  | [] => .ok ()
  | s :: rest =>
      if s.isHole || first.isHole then .error .outside
      else if s.size != first.size then .error (.error (.unequalDuplicates name s first))
      else checkCopies name first rest

def dupProgram (side : Side) (vars : List Symbol) (cursor : Nat) (n : Int) :
    Compose (Handle × Nat) := do
  let name := (dup n).text
  match side with
  | .inputs =>
      match ← take vars cursor n name with
      | [] => return (← Channels.passThrough [], cursor)
      | s :: rest =>
          Compose.ofFresh (Fresh.ofExcept (checkCopies name s rest))
          return (← Channels.fanOut s (rest.length + 1), cursor + rest.length + 1)
  | .outputs =>
      match ← take vars cursor 1 name with
      | s :: _ => return (← Channels.fanOut s n, cursor + 1)
      | [] => throw .outside

def wrapProgram (side : Side) (vars : List Symbol) (cursor : Nat) (h : Option Handle) :
    Compose (Handle × Nat) := do
  match h with
  | none => throw .outside
  | some g =>
      let n : Int := match side with
        | .inputs => g.outputs.length
        | .outputs => g.freeCount
      let taken ← take vars cursor n (wrap h).text
      return (g, cursor + taken.length)

mutual

/-- The program for the next channels, and the cursor behind them. -/
def program (c : Composer) (side : Side) (vars : List Symbol) (cursor : Nat) :
    Fixed → Compose (Handle × Nat)
  | keep n => do
      let taken ← take vars cursor n (keep n).text
      return (← Channels.passThrough taken, cursor + taken.length)
  | lose n => do
      let taken ← take vars cursor n (lose n).text
      let h ← match side with
        | .inputs => Channels.source taken
        | .outputs => Channels.sink taken
      return (h, cursor + taken.length)
  | dup n => dupProgram side vars cursor n
  | wrap h => wrapProgram side vars cursor h
  | tree children => do
      let start ← Channels.passThrough []
      combined c side vars cursor start children

def combined (c : Composer) (side : Side) (vars : List Symbol) (cursor : Nat) (done : Handle) :
    List Fixed → Compose (Handle × Nat)
  | [] => return (done, cursor)
  | f :: rest => do
      let (h, next) ← program c side vars cursor f
      let wider ← c.combine (some done) (some h)
      combined c side vars next wider rest

end

/-- One manipulator after another. -/
def both (f g : Fixed) : Fixed := tree [f, g]

end Fixed

end Selection

namespace Composer

def fixInputs (c : Composer) (h : Option Handle) (f : Selection.Fixed) : Compose Handle := do
  match h with
  | none => Compose.refuse (.missing "manipulation of a nil program")
  | some g =>
      let free ← Compose.ofFresh g.freeInputs
      let (front, _) ← f.program c .inputs free 0
      connect c (some front) h

def fixOutputs (c : Composer) (h : Option Handle) (f : Selection.Fixed) : Compose Handle := do
  match h with
  | none => Compose.refuse (.missing "manipulation of a nil program")
  | some g =>
      let (back, _) ← f.program c .outputs g.outputs 0
      connect c h (some back)

end Composer

end KernelAlgebra
