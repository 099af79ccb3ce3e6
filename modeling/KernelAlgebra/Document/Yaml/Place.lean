import KernelAlgebra.Document.Yaml.Fault
import KernelAlgebra.Text.Glyph

/-!
# The characters of a YAML document, each with its place

A document is read as a list of places that ends with one for the end of the document.  Every
line end is a single character there: a carriage return, a line feed, both together and the
next-line control all become a line feed.
-/

namespace KernelAlgebra.Document.Yaml

/-! ## Classes of characters -/

/-- The character that stands for the end of a document; no document has it. -/
def finish : Char := Char.ofNat 0

def nextLine : Char := Char.ofNat 0x85

def isBreak (c : Char) : Bool :=
  c = '\n' || c = '\r' || c = nextLine || c = Char.ofNat 0x2028 || c = Char.ofNat 0x2029

def isBlank (c : Char) : Bool := c = ' ' || c = '\t'

def endsLine (c : Char) : Bool := isBreak c || c = finish

def endsWord (c : Char) : Bool := isBlank c || endsLine c

def inName (c : Char) : Bool := c.isAlphanum || c = '_' || c = '-'

def isAllowed (c : Char) : Bool :=
  let n := c.toNat
  n = 0x09 || n = 0x0A || n = 0x0D || (0x20 ≤ n && n ≤ 0x7E) || n = 0x85 ||
    (0xA0 ≤ n && n ≤ 0xD7FF) || (0xE000 ≤ n && n ≤ 0xFFFD) || 0x10000 ≤ n

/-! ## Bytes that are no character -/

def widthFrom? (lead : UInt8) : Option Nat :=
  if lead < 0x80 then some 1
  else if lead &&& 0xE0 = 0xC0 then some 2
  else if lead &&& 0xF0 = 0xE0 then some 3
  else if lead &&& 0xF8 = 0xF0 then some 4
  else none

def leadPayload (width : Nat) (lead : UInt8) : Nat :=
  match width with
  | 2 => lead.toNat % 32
  | 3 => lead.toNat % 16
  | _ => lead.toNat % 8

def smallestOfWidth : Nat → Nat
  | 2 => 0x80
  | 3 => 0x800
  | _ => 0x10000

def strayComplaint (lead : UInt8) (rest : List UInt8) : Complaint :=
  match widthFrom? lead with
  | none => .leadingByte
  | some width =>
      let more := rest.take (width - 1)
      if more.length + 1 < width then .missingBytes
      else if !more.all Text.isContinuation then .trailingByte
      else
        let value := more.foldl (fun n b => n * 64 + Text.payload b) (leadPayload width lead)
        if value < smallestOfWidth width then .byteCount else .noCharacter

def bytesOf : Glyph → List UInt8
  | .char c => c.toString.toUTF8.toList
  | .stray b => [b]

def characters : Text → Except Fault (List Char)
  | [] => .ok []
  | .stray b :: rest => .error { complaint := strayComplaint b (rest.flatMap bytesOf) }
  | .char c :: rest =>
      if isAllowed c then do return c :: (← characters rest)
      else .error { complaint := .controlCharacter }

def encodingMark : Char := Char.ofNat 0xFEFF

def withoutMark : Text → Text
  | .char c :: rest => if c = encodingMark then rest else .char c :: rest
  | t => t

/-! ## Places -/

structure Mark where
  /-- How many lines lie above. -/
  line : Nat := 0
  column : Nat := 0
  index : Nat := 0
  deriving DecidableEq, Repr

namespace Mark

def next (m : Mark) : Mark := ⟨m.line, m.column + 1, m.index + 1⟩

def behindBreak (m : Mark) (width : Nat) : Mark := ⟨m.line + 1, 0, m.index + width⟩

end Mark

structure Place where
  char : Char
  mark : Mark
  deriving DecidableEq, Repr

abbrev Ahead := List Place

def placesFrom (m : Mark) : List Char → Ahead
  | [] => [⟨finish, m⟩]
  | '\r' :: '\n' :: rest => ⟨'\n', m⟩ :: placesFrom (m.behindBreak 2) rest
  | c :: rest =>
      if isBreak c then
        ⟨if c = '\r' || c = nextLine then '\n' else c, m⟩ :: placesFrom (m.behindBreak 1) rest
      else ⟨c, m⟩ :: placesFrom m.next rest

namespace Ahead

def peek (a : Ahead) : Char := (a.head?.map Place.char).getD finish

def peekAt (a : Ahead) (n : Nat) : Char := peek (a.drop n)

def mark (a : Ahead) : Mark := (a.head?.map Place.mark).getD {}

def line (a : Ahead) : Nat := a.mark.line

def span (a : Ahead) (p : Char → Bool) : List Char × Ahead :=
  ((a.takeWhile fun x => p x.char).map Place.char, a.dropWhile fun x => p x.char)

def skip (a : Ahead) (p : Char → Bool) : Ahead := a.dropWhile fun x => p x.char

def atMarker (a : Ahead) : Bool :=
  a.mark.column = 0 && endsWord (a.peekAt 3) &&
    ((a.take 3).map Place.char = ['-', '-', '-'] || (a.take 3).map Place.char = ['.', '.', '.'])

/-- The rest of a line may hold blanks and a comment; the reader goes on behind its end. -/
def lineBehind (a : Ahead) : Except Fault Ahead :=
  let a := a.skip isBlank
  let a := if a.peek = '#' then a.skip (!endsLine ·) else a
  if !endsLine a.peek then .error (.inToken .textBehindHeader a.line)
  else if isBreak a.peek then .ok a.tail
  else .ok a

def fail {α : Type} (a : Ahead) (complaint : Complaint) : Except Fault α :=
  .error (.inToken complaint a.line)

end Ahead

end KernelAlgebra.Document.Yaml
