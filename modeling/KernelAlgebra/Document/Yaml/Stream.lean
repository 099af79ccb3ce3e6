import KernelAlgebra.Document.Yaml.Block
import KernelAlgebra.Document.Yaml.Tag

/-!
# The tokens of a document one after another

Whether a scalar is the key of a mapping shows only at the colon behind it: the tokens of the
key, and of the mapping that it may start, then go before the scalar.  So a token that may be a
key waits in a queue until that is certain.
-/

namespace KernelAlgebra.Document.Yaml

/-!
## Tokens

Indentation and brackets become tokens of their own.
-/

inductive TokenKind where
  | directive (d : Directive)
  | documentStart
  | documentEnd
  | streamEnd
  | blockSequenceStart
  | blockMappingStart
  | blockEnd
  | flowSequenceStart
  | flowSequenceEnd
  | flowMappingStart
  | flowMappingEnd
  | blockEntry
  | flowEntry
  | key
  | value
  | reference (name : String)
  | anchor (name : String)
  | tag (t : Tag)
  | scalar (text : String) (plain : Bool)
  deriving DecidableEq, Repr

structure Token where
  kind : TokenKind
  /-- How many lines lie above its start. -/
  line : Nat
  deriving DecidableEq, Repr

/-! ## Streams -/

/-- A token that may be the key of a mapping, by its number in the stream. -/
structure Candidate where
  number : Nat := 0
  mark : Mark := {}
  possible : Bool := false
  /-- Nothing but a key can stand there. -/
  required : Bool := false
  /-- The queue waits for the decision. -/
  awaited : Bool := false
  deriving DecidableEq, Repr

/-- A colon may stand this many characters behind the start of its key at most. -/
def keyReach : Nat := 1024

def Candidate.holdsAt (k : Candidate) (m : Mark) : Except Fault Bool :=
  if !k.possible then .ok false
  else if k.mark.line < m.line || k.mark.index + keyReach < m.index then
    if k.required then .error (.inToken .missingColon m.line) else .ok false
  else .ok true

def Candidate.released (k : Candidate) (number : Nat) : Candidate :=
  if k.number = number then { k with awaited := false } else k

structure Stream where
  ahead : Ahead
  /-- The indentation of the open block; outside of all blocks it is negative. -/
  indent : Int := -1
  outerIndents : List Int := []
  candidate : Candidate := {}
  /-- The candidates outside of the open brackets, those of the innermost ones first. -/
  outerCandidates : List Candidate := []
  /-- Whether a key without a mark may start here. -/
  keyAllowed : Bool := true
  queue : List Token := []
  /-- How many tokens have left the queue. -/
  taken : Nat := 0

namespace Stream

def inFlow (s : Stream) : Bool := !s.outerCandidates.isEmpty

def mark (s : Stream) : Mark := s.ahead.mark

def line (s : Stream) : Nat := s.ahead.line

def column (s : Stream) : Int := s.mark.column

def push (s : Stream) (kind : TokenKind) (line : Nat) : Stream :=
  { s with queue := s.queue ++ [⟨kind, line⟩] }

/-- Puts a token before the one with a number; one that has left the queue is out of reach. -/
def pushBefore (s : Stream) (number : Nat) (kind : TokenKind) (line : Nat) : Stream :=
  if number < s.taken then s.push kind line
  else { s with queue := s.queue.insertIdx (number - s.taken) ⟨kind, line⟩ }

/-! ## Indentation -/

def closings (column : Int) : Int → List Int → Nat × Int × List Int
  | indent, [] => (0, indent, [])
  | indent, i :: more =>
      if indent ≤ column then (0, indent, i :: more)
      else
        let (n, rest) := closings column i more
        (n + 1, rest)

def unroll (s : Stream) (column : Int) : Stream :=
  if s.inFlow then s
  else
    let (n, indent, outer) := closings column s.indent s.outerIndents
    { s with
      indent := indent,
      outerIndents := outer,
      queue := s.queue ++ List.replicate n ⟨.blockEnd, s.line⟩ }

/-- Starts a block if a column is indented further; its token goes before another one, if any. -/
def roll (s : Stream) (column : Int) (before : Option Nat) (kind : TokenKind) (line : Nat) :
    Stream :=
  if s.inFlow || column ≤ s.indent then s
  else
    let s := { s with indent := column, outerIndents := s.indent :: s.outerIndents }
    match before with
    | some number => s.pushBefore number kind line
    | none => s.push kind line

/-! ## Candidates for keys -/

def dropCandidate (s : Stream) : Except Fault Stream :=
  if s.candidate.possible && s.candidate.required then
    .error (.inToken .missingColon s.line)
  else .ok { s with candidate := { s.candidate with possible := false, awaited := false } }

def saveCandidate (s : Stream) : Except Fault Stream :=
  if !s.keyAllowed then .ok s
  else do
    let s ← s.dropCandidate
    return { s with candidate :=
      { number := s.taken + s.queue.length,
        mark := s.mark,
        possible := true,
        required := !s.inFlow && s.indent = s.column,
        awaited := true } }

/-! ## Single tokens -/

def take (s : Stream) (width : Nat) (kind : TokenKind) : Stream :=
  { s.push kind s.line with ahead := s.ahead.drop width }

/-- The end of the document counts as the start of a line. -/
def finishPlace (m : Mark) : Place :=
  ⟨finish, if m.column = 0 then m else m.behindBreak 0⟩

def atFinish (s : Stream) : Except Fault Stream := do
  let s := { s with ahead := [finishPlace s.mark] }
  let s ← (s.unroll (-1)).dropCandidate
  return { s.push .streamEnd s.line with keyAllowed := false }

def atDirective (s : Stream) : Except Fault Stream := do
  let s ← (s.unroll (-1)).dropCandidate
  let (d, after) ← directive (s.ahead.drop 1)
  return { s.push (.directive d) s.line with ahead := after, keyAllowed := false }

def atMarker (s : Stream) : Except Fault Stream := do
  let kind := if s.ahead.peek = '-' then TokenKind.documentStart else .documentEnd
  let s ← (s.unroll (-1)).dropCandidate
  return { s.take 3 kind with keyAllowed := false }

def atOpening (s : Stream) (kind : TokenKind) : Except Fault Stream := do
  let s ← s.saveCandidate
  let inner : Candidate := { number := s.taken + s.queue.length, mark := s.mark }
  let s := s.take 1 kind
  return { s with
    candidate := inner,
    outerCandidates := s.candidate :: s.outerCandidates,
    keyAllowed := true }

/--
The candidate inside the brackets is given up together with them.  If there never was one, its
number is the one of the opening bracket itself, which then stops waiting as well.
-/
def atClosing (s : Stream) (kind : TokenKind) : Except Fault Stream := do
  let s ← s.dropCandidate
  let s := { s.take 1 kind with keyAllowed := false }
  match s.outerCandidates with
  | [] => return s
  | k :: more =>
      return { s with
        candidate := k.released s.candidate.number,
        outerCandidates := more }

def atComma (s : Stream) : Except Fault Stream := do
  let s ← s.dropCandidate
  return { s.take 1 .flowEntry with keyAllowed := true }

def startBlock (s : Stream) (kind : TokenKind) (complaint : Complaint) : Except Fault Stream :=
  if s.inFlow then .ok s
  else if !s.keyAllowed then .error (.inToken complaint s.line)
  else .ok (s.roll s.column none kind s.line)

def atDash (s : Stream) : Except Fault Stream := do
  let s ← s.startBlock .blockSequenceStart .entryMisplaced
  let s ← s.dropCandidate
  return { s.take 1 .blockEntry with keyAllowed := true }

def atQuestion (s : Stream) : Except Fault Stream := do
  let s ← s.startBlock .blockMappingStart .keyMisplaced
  let s ← s.dropCandidate
  return { s.take 1 .key with keyAllowed := !s.inFlow }

def atColon (s : Stream) : Except Fault Stream := do
  let k := s.candidate
  if ← k.holdsAt s.mark then
    let s := s.pushBefore k.number .key k.mark.line
    let s := s.roll k.mark.column (some k.number) .blockMappingStart k.mark.line
    let s := { s with candidate := { k with possible := false, awaited := false } }
    return { s.take 1 .value with keyAllowed := false }
  else
    let s ← s.startBlock .blockMappingStart .valueMisplaced
    return { s.take 1 .value with keyAllowed := !s.inFlow }

def atWord {α : Type} (s : Stream) (kind : α → TokenKind) (read : Except Fault (α × Ahead)) :
    Except Fault Stream := do
  let s ← s.saveCandidate
  let (x, after) ← read
  return { s.push (kind x) s.line with ahead := after, keyAllowed := false }

def atBlockScalar (s : Stream) (folded : Bool) : Except Fault Stream := do
  let s ← s.dropCandidate
  let (text, after) ← blockScalar folded s.indent (s.ahead.drop 1)
  return { s.push (.scalar (String.ofList text) false) s.line with
    ahead := after, keyAllowed := true }

def atQuote (s : Stream) (q : Quotes) : Except Fault Stream :=
  s.atWord (fun text => .scalar (String.ofList text) false) (quotedFrom q {} (s.ahead.drop 1))

/-- Behind a plain scalar a key may start if it ended at the start of a line. -/
def atPlain (s : Stream) : Except Fault Stream := do
  let s ← s.saveCandidate
  let (text, gap, after) ← plainFrom ⟨s.inFlow, s.indent + 1⟩ {} s.ahead
  return { s.push (.scalar (String.ofList text) true) s.line with
    ahead := after, keyAllowed := !gap.breaks.isEmpty }

/-! ## All tokens -/

/--
Blanks, comments and line ends between tokens.  A line end allows a key outside of brackets;
where one is allowed, tabs are not skipped.
-/
def idle (flow allowed comment : Bool) : Ahead → Bool × Ahead
  | [] => (allowed, [])
  | p :: rest =>
      if isBreak p.char then idle flow (allowed || !flow) false rest
      else if comment && p.char ≠ finish then idle flow allowed true rest
      else if p.char = ' ' || (p.char = '\t' && (flow || !allowed)) then
        idle flow allowed false rest
      else if p.char = '#' then idle flow allowed true rest
      else (allowed, p :: rest)

def isIndicator (c : Char) : Bool :=
  ['-', '?', ':', ',', '[', ']', '\x7b', '\x7d', '#', '&', '*', '!', '|', '>', '\'', '"', '%',
    '@', '\x60'].contains c

def startsPlain (s : Stream) : Bool :=
  let c := s.ahead.peek
  !(endsWord c || isIndicator c) || (c = '-' && !isBlank (s.ahead.peekAt 1)) ||
    (!s.inFlow && (c = '?' || c = ':') && !endsWord (s.ahead.peekAt 1))

def atText (s : Stream) : Except Fault Stream :=
  let rest := s.ahead.drop 1
  let stands := endsWord (s.ahead.peekAt 1)
  match s.ahead.peek with
  | '[' => s.atOpening .flowSequenceStart
  | '\x7b' => s.atOpening .flowMappingStart
  | ']' => s.atClosing .flowSequenceEnd
  | '\x7d' => s.atClosing .flowMappingEnd
  | ',' => s.atComma
  | '*' => s.atWord .reference (anchorName rest)
  | '&' => s.atWord .anchor (anchorName rest)
  | '!' => s.atWord .tag (tag s.ahead)
  | '\'' => s.atQuote .single
  | '"' => s.atQuote .double
  | c =>
      if c = '-' && stands then s.atDash
      else if c = '?' && (s.inFlow || stands) then s.atQuestion
      else if c = ':' && (s.inFlow || stands) then s.atColon
      else if c = '|' && !s.inFlow then s.atBlockScalar false
      else if c = '>' && !s.inFlow then s.atBlockScalar true
      else if s.startsPlain then s.atPlain
      else .error (.inToken .noToken s.line)

def advance (s : Stream) : Except Fault Stream :=
  let (allowed, after) := idle s.inFlow s.keyAllowed false s.ahead
  let s := { s with ahead := after, keyAllowed := allowed }
  let s := s.unroll s.column
  if s.ahead.peek = finish then s.atFinish
  else if s.mark.column = 0 && s.ahead.peek = '%' then s.atDirective
  else if s.ahead.atMarker then s.atMarker
  else s.atText

/-! ## The queue -/

def isOpen (s : Stream) : Except Fault Bool :=
  match (s.candidate :: s.outerCandidates).find? fun k => k.awaited && k.number = s.taken with
  | some k => k.holdsAt s.mark
  | none => .ok false

def filledBy : Nat → Stream → Except Fault Stream
  | 0, s => .ok s
  | fuel + 1, s => do
      if !s.queue.isEmpty && !(← s.isOpen) then return s
      filledBy fuel (← s.advance)

def filled (s : Stream) : Except Fault Stream := filledBy (s.ahead.length + 2) s

def ofPlaces (ahead : Ahead) : Stream := { ahead }

end Stream

end KernelAlgebra.Document.Yaml
