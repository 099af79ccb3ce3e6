import KernelAlgebra.Assembly.SourceError
import KernelAlgebra.Text.Letter

/-!
# Splitting source text into tokens

At each place the lexer looks at one glyph and decides how many more belong with it, as a
token, as something to skip or as an error.  Line feeds and semicolons are tokens of their
own.  Comments run to the end of the line, or nest between `/*` and `*/`; a block comment
that is never closed ends with the source.
-/

namespace KernelAlgebra.Assembly

inductive LexComplaint where
  | expected (what : String)
  | stray (c : Char)
  | unterminatedString
  deriving DecidableEq, Repr

def LexComplaint.message : LexComplaint → String
  | .expected what => s!"expected {what}"
  | .stray c => s!"unexpected character {Text.quotedChar c}"
  | .unterminatedString => "unterminated string"

/-- What starts at a place; `more` counts the glyphs behind the first one that belong to it. -/
inductive Scan where
  | token (kind : TokenKind) (more : Nat)
  | skip (more : Nat)
  | fail (complaint : LexComplaint) (more : Nat)
  deriving DecidableEq, Repr

def isDigit (g : Glyph) : Bool :=
  '0' ≤ g.rune && g.rune ≤ '9'

def startsWord (g : Glyph) : Bool :=
  Text.isLetter g.rune || g.rune = '_'

def continuesWord (g : Glyph) : Bool :=
  Text.isLetter g.rune || isDigit g || g.rune = '_'

def leadingCount (p : Glyph → Bool) (t : Text) : Nat :=
  (t.takeWhile p).length

def digitCount (t : Text) : Nat := leadingCount isDigit t

def fractionCount : Text → Nat
  | .char '.' :: g :: rest => if isDigit g then 2 + digitCount rest else 0
  | _ => 0

def exponentCount : Text → Nat
  | .char e :: g :: rest =>
      if e = 'e' || e = 'E' then
        if isDigit g || g = .char '+' || g = .char '-' then 2 + digitCount rest else 0
      else 0
  | _ => 0

def numberCount (t : Text) : Nat :=
  let whole := digitCount t
  let fraction := fractionCount (t.drop whole)
  whole + fraction + exponentCount (t.drop (whole + fraction))

def notLineFeed (g : Glyph) : Bool := g ≠ .char '\n'

def commentCount : Nat → Text → Nat
  | 0, _ => 0
  | _ + 1, [] => 0
  | depth + 1, .char '/' :: .char '*' :: rest => 2 + commentCount (depth + 2) rest
  | depth + 1, .char '*' :: .char '/' :: rest => 2 + commentCount depth rest
  | depth + 1, _ :: rest => 1 + commentCount (depth + 1) rest

def inString (g : Glyph) : Bool :=
  g ≠ .char '"' && g ≠ .char '\n'

def scanString (rest : Text) : Scan :=
  let inside := leadingCount inString rest
  match rest.drop inside with
  | .char '"' :: _ => .token .string (inside + 1)
  | _ => .fail .unterminatedString inside

def scanWord (g : Glyph) (rest : Text) : Scan :=
  let more := leadingCount continuesWord rest
  .token (TokenKind.ofWord (Text.shown (g :: rest.take more))) more

def scan (g : Glyph) (rest : Text) : Scan :=
  match g.rune with
  | '(' => .token .leftParen 0
  | ')' => .token .rightParen 0
  | ',' => .token .comma 0
  | '.' => .token .dot 0
  | ':' => .token .colon 0
  | '=' => .token .equal 0
  | '&' => .token .ampersand 0
  | '-' => .token .minus 0
  | '~' =>
      match rest with
      | .char '>' :: _ => .token .tildeGreater 1
      | .char '&' :: _ => .token .tildeAmpersand 1
      | _ => .fail (.expected "~> or ~&") 0
  | '>' =>
      match rest with
      | .char '>' :: _ => .token .shiftRight 1
      | _ => .fail (.expected ">>") 0
  | '<' =>
      match rest with
      | .char '<' :: _ => .token .shiftLeft 1
      | _ => .fail (.expected "<<") 0
  | '"' => scanString rest
  | '#' => .skip (leadingCount notLineFeed rest)
  | '/' =>
      match rest with
      | .char '/' :: more => .skip (1 + leadingCount notLineFeed more)
      | .char '*' :: more => .skip (1 + commentCount 1 more)
      | _ => .fail (.stray '/') 0
  | ';' => .token .newline 0
  | '\n' => .token .newline 0
  | ' ' | '\r' | '\t' => .skip 0
  | c =>
      if isDigit g then .token .number (numberCount rest)
      else if startsWord g then scanWord g rest
      else .fail (.stray c) 0

namespace Position

def first : Position := ⟨1, 1⟩

def after (p : Position) (g : Glyph) : Position :=
  if g = .char '\n' then ⟨p.line + 1, 1⟩ else ⟨p.line, p.column + 1⟩

def afterAll (p : Position) (t : Text) : Position :=
  t.foldl after p

/--
The column of a lexeme that starts at this place: columns count glyphs, but the length of
the lexeme is taken off in bytes.
-/
def columnOf (p : Position) (lexeme : Text) : Int :=
  p.column + lexeme.length - lexeme.byteLength

end Position

def endToken (p : Position) : Token := ⟨.eof, [], p.line, p.column⟩

def tokensFrom (source : Text) (p : Position) : Text → Except SourceError (List Token × Position)
  | [] => .ok ([], p)
  | g :: rest =>
      match scan g rest with
      | .token kind more =>
          let lexeme := g :: rest.take more
          match tokensFrom source (p.afterAll lexeme) (rest.drop more) with
          | .ok (ts, last) => .ok (⟨kind, lexeme, p.line, p.columnOf lexeme⟩ :: ts, last)
          | .error e => .error e
      | .skip more => tokensFrom source (p.afterAll (g :: rest.take more)) (rest.drop more)
      | .fail complaint more =>
          let place : Position := ⟨p.line, p.columnOf (g :: rest.take more)⟩
          .error ⟨complaint.message, ⟨place, ⟨0, 0⟩⟩, source, none⟩
termination_by t => t.length
decreasing_by
  all_goals
    simp only [List.length_drop, List.length_cons]
    omega

def tokenize (source : Text) : Except SourceError (List Token × Token) :=
  (tokensFrom source Position.first source).map fun (ts, last) => (ts, endToken last)

end KernelAlgebra.Assembly
