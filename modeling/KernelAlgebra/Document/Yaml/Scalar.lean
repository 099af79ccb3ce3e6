import KernelAlgebra.Document.Yaml.Place
import KernelAlgebra.Number.Read

/-!
# Scalars
-/

namespace KernelAlgebra.Document.Yaml

/-!
## Plain scalars

A plain scalar has no quotes.  It ends at a colon before a blank, at a comment, at a marker, at
a line that is not indented enough and, inside brackets, at the marks of flow collections.
Line ends in it are folded.
-/

structure Gap where
  /-- The blanks before the first line end. -/
  blanks : List Char := []
  breaks : List Char := []
  /-- A backslash stood before a line end that does not count. -/
  escaped : Bool := false
  deriving DecidableEq, Repr

namespace Gap

def isEmpty (g : Gap) : Bool := g.blanks.isEmpty && g.breaks.isEmpty

/-- The gap with one more blank or line end; blanks behind a line end do not count. -/
def extend (g : Gap) (c : Char) : Gap :=
  if isBreak c then { g with blanks := [], breaks := g.breaks ++ [c] }
  else if g.escaped || !g.breaks.isEmpty then g
  else { g with blanks := g.blanks ++ [c] }

/-- The text of a gap: a single line feed is a blank, and of several the first does not count. -/
def text (g : Gap) : List Char :=
  if g.escaped then g.breaks
  else
    match g.breaks with
    | [] => g.blanks
    | c :: more =>
        if c = '\n' then (if more.isEmpty then [' '] else more) else c :: more

end Gap

def inGap (c : Char) : Bool := isBlank c || isBreak c

def endsFlowScalar (c : Char) : Bool :=
  c = ',' || c = '?' || c = '[' || c = ']' || c = '\x7b' || c = '\x7d'

structure PlainContext where
  flow : Bool
  indent : Int
  deriving DecidableEq, Repr

def PlainContext.endsAt (x : PlainContext) (gap : Gap) (a : Ahead) : Bool :=
  a.peek = finish || a.atMarker || (!gap.isEmpty && a.peek = '#') ||
    (!gap.isEmpty && !x.flow && decide ((a.mark.column : Int) < x.indent)) ||
    (a.peek = ':' && endsWord (a.peekAt 1)) || (x.flow && endsFlowScalar a.peek)

def plainFrom (x : PlainContext) (gap : Gap) : Ahead → Except Fault (List Char × Gap × Ahead)
  | [] => .ok ([], gap, [])
  | p :: rest =>
      if inGap p.char then
        if p.char = '\t' && !gap.breaks.isEmpty && (p.mark.column : Int) < x.indent then
          .error (.inToken .tabInPlain p.mark.line)
        else plainFrom x (gap.extend p.char) rest
      else if x.endsAt gap (p :: rest) then .ok ([], gap, p :: rest)
      else do
        let (text, last, after) ← plainFrom x {} rest
        return (gap.text ++ p.char :: text, last, after)

/-!
## Quoted scalars

In single quotes two quotes stand for one.  In double quotes a backslash begins an escape, and
one before a line end joins two lines.
-/

def escapeLetter? : Char → Option Char
  | '0' => some (Char.ofNat 0)
  | 'a' => some (Char.ofNat 7)
  | 'b' => some (Char.ofNat 8)
  | 't' | '\t' => some '\t'
  | 'n' => some '\n'
  | 'v' => some (Char.ofNat 11)
  | 'f' => some (Char.ofNat 12)
  | 'r' => some '\r'
  | 'e' => some (Char.ofNat 27)
  | ' ' => some ' '
  | '"' => some '"'
  | '\'' => some '\''
  | '\\' => some '\\'
  | 'N' => some nextLine
  | '_' => some (Char.ofNat 0xA0)
  | 'L' => some (Char.ofNat 0x2028)
  | 'P' => some (Char.ofNat 0x2029)
  | _ => none

def escapeDigits? : Char → Option Nat
  | 'x' => some 2
  | 'u' => some 4
  | 'U' => some 8
  | _ => none

def escape (a : Ahead) : Except Fault (Char × Nat) :=
  match escapeDigits? a.peek with
  | none =>
      match escapeLetter? a.peek with
      | some c => .ok (c, 1)
      | none => a.fail .unknownEscape
  | some n =>
      match Number.hexadecimal? ((a.tail.take n).map Place.char) with
      | none => a.fail .badHexadecimal
      | some value =>
          if value.isValidChar then .ok (Char.ofNat value, n + 1)
          else a.fail .badCode

inductive Quotes where
  | single
  | double
  deriving DecidableEq, Repr

def Quotes.char : Quotes → Char
  | single => '\''
  | double => '"'

def quotedFrom (q : Quotes) (gap : Gap) : Ahead → Except Fault (List Char × Ahead)
  | [] => .error (.inToken .unclosedQuote 0)
  | p :: rest =>
      let a : Ahead := p :: rest
      if inGap p.char then quotedFrom q (gap.extend p.char) rest
      else if a.atMarker then a.fail .markerInQuotes
      else if p.char = finish then a.fail .unclosedQuote
      else if p.char = q.char then
        if q = .single && Ahead.peek rest = '\'' then do
          let (text, after) ← quotedFrom q {} (rest.drop 1)
          return (gap.text ++ '\'' :: text, after)
        else .ok (gap.text, rest)
      else if q = .double && p.char = '\\' then
        if isBreak (Ahead.peek rest) then do
          let (text, after) ← quotedFrom q { escaped := true } (rest.drop 1)
          return (gap.text ++ text, after)
        else
          match escape rest with
          | .error f => .error f
          | .ok (c, n) => do
              let (text, after) ← quotedFrom q {} (rest.drop n)
              return (gap.text ++ c :: text, after)
      else do
        let (text, after) ← quotedFrom q {} rest
        return (gap.text ++ p.char :: text, after)
termination_by a => a.length
decreasing_by all_goals simp only [List.length_drop, List.length_cons]; omega

end KernelAlgebra.Document.Yaml
