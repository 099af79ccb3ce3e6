import KernelAlgebra.Symbol

/-!
# Tokens

Kernel assembly and pipeline expressions share their tokens.  A token knows its place in the
source.
-/

namespace KernelAlgebra.Assembly

/-- Lines count from one.  Columns may fall below one after characters of several bytes. -/
structure Position where
  line : Nat
  column : Int
  deriving DecidableEq, Repr

structure Span where
  start : Position
  stop : Position
  deriving DecidableEq, Repr

def Span.unset : Span := ⟨⟨0, 0⟩, ⟨0, 0⟩⟩

inductive TokenKind where
  | eof | error
  | ident | number | string
  | newline
  | minus | equal | dot | comma | colon | ampersand
  | shiftRight | shiftLeft | tildeGreater | tildeAmpersand
  | leftParen | rightParen
  | target
  | input | output | inout | temp | const | uniform | texture | stream
  | kill | openIf | openElse | closeIf | openWhile | closeWhile
  deriving DecidableEq, Repr

namespace TokenKind

def all : List TokenKind :=
  [eof, error, ident, number, string, newline,
   minus, equal, dot, comma, colon, ampersand,
   shiftRight, shiftLeft, tildeGreater, tildeAmpersand,
   leftParen, rightParen,
   target, input, output, inout, temp, const, uniform, texture, stream,
   kill, openIf, openElse, closeIf, openWhile, closeWhile]

def name : TokenKind → String
  | eof => "EOF"
  | error => "Error"
  | ident => "Ident"
  | number => "Number"
  | string => "String"
  | newline => "newline"
  | minus => "-"
  | equal => "="
  | dot => "."
  | comma => ","
  | colon => ":"
  | ampersand => "&"
  | shiftRight => ">>"
  | shiftLeft => "<<"
  | tildeGreater => "~>"
  | tildeAmpersand => "~&"
  | leftParen => "("
  | rightParen => ")"
  | target => "target"
  | input => "input"
  | output => "output"
  | inout => "inout"
  | temp => "temp"
  | const => "const"
  | uniform => "uniform"
  | texture => "texture"
  | stream => "stream"
  | kill => "kill"
  | openIf => "if"
  | openElse => "else"
  | closeIf => "endif"
  | openWhile => "while"
  | closeWhile => "endwhile"

def nameOfCode (code : Nat) : String :=
  match all[code]? with
  | some k => k.name
  | none => "Unknown"

def role? : TokenKind → Option Role
  | input => some .input
  | output => some .output
  | inout => some .inout
  | temp => some .temp
  | const => some .const
  | uniform => some .uniform
  | texture => some .texture
  | stream => some .stream
  | _ => none

def isDeclaration (k : TokenKind) : Bool := k.role?.isSome

def keywords : List TokenKind :=
  [target, input, output, inout, temp, const, uniform, texture, stream,
   kill, openIf, openElse, closeIf, openWhile, closeWhile]

def ofWord (word : String) : TokenKind :=
  (keywords.find? (·.name == word)).getD ident

end TokenKind

structure Token where
  kind : TokenKind
  lexeme : Text
  line : Nat
  column : Int
  deriving DecidableEq, Repr

namespace Token

def text (t : Token) : String := t.lexeme.shown

def start (t : Token) : Position := ⟨t.line, t.column⟩

/-- The place behind the token; lexemes are measured in bytes. -/
def stop (t : Token) : Position := ⟨t.line, t.column + t.lexeme.byteLength⟩

def span (t : Token) : Span := ⟨t.start, t.stop⟩

def described (t : Token) : String :=
  match t.kind with
  | .ident | .number | .string => t.kind.name ++ " " ++ Text.quotedText t.lexeme
  | k => k.name

end Token

end KernelAlgebra.Assembly
