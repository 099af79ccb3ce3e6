import KernelAlgebra.Compose.Channels

/-!
# Records

A record is a list of symbols that are assigned as a unit.  It can take the values of another
record, symbol by symbol, or the outputs of a whole program, whose code then becomes part of
the kernel under construction.
-/

namespace KernelAlgebra

abbrev Record := List Symbol

namespace Record

def checkSizes (fault : Nat → Symbol → Symbol → ComposeError) :
    Nat → Record → Record → Except (Fault ComposeError) Unit
  | i, a :: as, b :: bs =>
      if a.isHole || b.isHole then .error .outside
      else if a.size != b.size then .error (.error (fault i a b))
      else checkSizes fault (i + 1) as bs
  | _, _, _ => .ok ()

def assignAll (b : Builder) : Record → Record → Except BuilderError Builder
  | d :: ds, s :: ss =>
      match b.assign (View.full d) (View.full s) with
      | .error e => .error e
      | .ok b => assignAll b ds ss
  | _, _ => .ok b

/-- Assigns `src` to `dst` as far as both reach; nothing happens if some pair differs in size. -/
def assign (b : Builder) (dst src : Record) : Except (Fault ComposeError) Builder :=
  match checkSizes (fun i d s => .recordSizes i s d) 0 dst src with
  | .error f => .error f
  | .ok () => (assignAll b dst src).mapError fun e => .error (.refused e.toError)

end Record

namespace Composer

def checkAssignment (h : Handle) (free : List Symbol) (r args : Record) :
    Except (Fault ComposeError) Unit :=
  if free.length != args.length then
    .error (.error (.argumentCount h.summary free.length args.length))
  else if h.outputs.length != r.length then
    .error (.error (.resultCount h.summary h.outputs.length r.length))
  else
    match Record.checkSizes (fun i n a => .argumentSize i a n) 0 free args with
    | .error f => .error f
    | .ok () => Record.checkSizes .resultSize 0 h.outputs r

def argumentFeeder (target : String) (free : List Symbol) (args : Record) : Compose Handle := do
  let outs ← Channels.like .output free
  let block := List.zipWith Instruction.copy outs args
  Channels.plain { channelProgram [] outs block with target := target }

def resultCapture (target : String) (outs : List Symbol) (r : Record) : Compose Handle := do
  let ins ← Channels.like .input outs
  let block := List.zipWith Instruction.copy r ins
  Channels.plain { channelProgram ins [] block with target := target }

def inlineInto (b : Builder) (p : Program) : Compose Builder :=
  match b.inline p with
  | .ok b => return b
  | .error e => Compose.refuse (.refused e.toError)

def assignProgramOf (c : Composer) (r : Record) (b : Builder) (h : Handle) (args : Record) :
    Compose Builder := do
  if h.hasStreams then Compose.refuse (.streamsInAssignment h.summary)
  else
    let free ← Compose.ofFresh h.freeInputs
    Compose.ofFresh (Fresh.ofExcept (checkAssignment h free r args))
    let feeder ← argumentFeeder b.program.target free args
    let capture ← resultCapture b.program.target h.outputs r
    let fed ← connectCore c.raw (some feeder) (some h)
    let whole ← connectCore c.raw (some fed) (some capture)
    let p ← Compose.ofFresh whole.resolve
    let names := String.intercalate ", " (r.map Symbol.label)
    Compose.debug c s!"assign_program: inlining {p.summary} into {names}"
    inlineInto b p

def assignProgramCore (c : Composer) (r : Record) (b : Builder) (h : Option Handle)
    (args : Record) : Compose Builder :=
  match h with
  | some h => assignProgramOf c r b h args
  | none => Compose.refuse (.missing "assignment of a nil program")

/--
Inlines a program at the current position of a kernel: the arguments feed its free inputs,
and the record takes its outputs.
-/
def assignProgram (c : Composer) (r : Record) (b : Builder) (h : Option Handle) (args : Record) :
    Compose Builder := do
  match ← Compose.attempt (assignProgramCore c r b h args) with
  | .ok b =>
      Compose.count c fun m => m.countSuccess "assign_program" none
      return b
  | .error e =>
      Compose.countFailure c "assign_program" e
      Compose.refuse e

end Composer

end KernelAlgebra
