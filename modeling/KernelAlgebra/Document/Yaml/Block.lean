import KernelAlgebra.Document.Yaml.Place

/-!
# Block scalars

A block scalar is a header and the lines below it that are indented enough.  A literal one
keeps its line ends and a folded one joins lines of text.
-/

namespace KernelAlgebra.Document.Yaml

inductive Chomp where
  | clip
  | strip
  | keep
  deriving DecidableEq, Repr

structure BlockHeader where
  chomp : Chomp := .clip
  /-- How much further than its parent the block is indented; zero if the header is silent. -/
  increment : Nat := 0
  deriving DecidableEq, Repr

def chompOf? : Char → Option Chomp
  | '+' => some .keep
  | '-' => some .strip
  | _ => none

def increment (a : Ahead) : Except Fault (Nat × Ahead) :=
  if a.peek = '0' then a.fail .zeroIndent
  else if a.peek.isDigit then .ok (a.peek.toNat - 48, a.drop 1)
  else .ok (0, a)

/-- A header behind its mark: the two parts may stand in either order. -/
def blockHeader (a : Ahead) : Except Fault (BlockHeader × Ahead) :=
  match chompOf? a.peek with
  | some c => do
      let (n, a) ← increment (a.drop 1)
      return (⟨c, n⟩, a)
  | none => do
      let (n, b) ← increment a
      match chompOf? b.peek with
      | some c => return (⟨c, n⟩, b.drop 1)
      | none => return (⟨.clip, n⟩, b)

/--
Indentation and empty lines.  Gives the line ends, the deepest column among them and what
follows; as long as the indentation is unknown, which is written as zero, all spaces are part
of it.
-/
def emptyLines (indent deepest : Nat) : Ahead → Except Fault (List Char × Nat × Ahead)
  | [] => .ok ([], deepest, [])
  | p :: rest =>
      let inIndent := indent = 0 || p.mark.column < indent
      if inIndent && p.char = ' ' then emptyLines indent deepest rest
      else if inIndent && p.char = '\t' then .error (.inToken .tabInBlock p.mark.line)
      else if isBreak p.char then do
        let (breaks, deepest, after) ← emptyLines indent (max deepest p.mark.column) rest
        return (p.char :: breaks, deepest, after)
      else .ok ([], max deepest p.mark.column, p :: rest)

/-- What has been read of a block scalar behind its last line of text. -/
structure BlockTail where
  /-- Whether that line starts with a blank. -/
  blankLine : Bool := false
  lineEnd : List Char := []
  empty : List Char := []
  deriving DecidableEq, Repr

namespace BlockTail

/-- What joins the text with a next line; folding makes a blank of a single line feed. -/
def joint (t : BlockTail) (folded blankNext : Bool) : List Char :=
  if folded && !t.blankLine && !blankNext && t.lineEnd = ['\n'] then
    if t.empty.isEmpty then [' '] else t.empty
  else t.lineEnd ++ t.empty

def chomped (t : BlockTail) : Chomp → List Char
  | .strip => []
  | .clip => t.lineEnd
  | .keep => t.lineEnd ++ t.empty

end BlockTail

def blockLines (folded : Bool) (chomp : Chomp) (indent : Nat) :
    Nat → BlockTail → Ahead → Except Fault (List Char × Ahead)
  | 0, t, a => .ok (t.chomped chomp, a)
  | fuel + 1, t, a =>
      if a.mark.column ≠ indent || a.peek = finish then .ok (t.chomped chomp, a)
      else do
        let blank := isBlank a.peek
        let (line, b) := a.span (!endsLine ·)
        let (lineEnd, b) := if isBreak b.peek then ([b.peek], b.drop 1) else ([], b)
        let (empty, _, b) ← emptyLines indent 0 b
        let (text, after) ← blockLines folded chomp indent fuel ⟨blank, lineEnd, empty⟩ b
        return (t.joint folded blank ++ line ++ text, after)

def blockScalar (folded : Bool) (outer : Int) (a : Ahead) : Except Fault (List Char × Ahead) := do
  let (header, a) ← blockHeader a
  let a ← a.lineBehind
  let announced := if header.increment = 0 then 0 else (max outer 0).toNat + header.increment
  let (empty, deepest, a) ← emptyLines announced 0 a
  let indent := if announced = 0 then max deepest (max (outer + 1).toNat 1) else announced
  blockLines folded header.chomp indent a.length { empty } a

end KernelAlgebra.Document.Yaml
