import KernelAlgebra.Assembly.Lexer
import KernelAlgebra.Number.Integer
import KernelAlgebra.Pipeline.Expr

/-!
# Parsing composition expressions

    expr    = combine { (">>" | "<<" | "~>") combine }
    combine = primary { ("&" | "~&") primary }
    primary = name | name "(" [ arg { "," arg } ] ")" | "(" expr ")"
    arg     = expr | [ "-" ] number | string

Both levels associate to the left, and combination binds tighter than connection.  Line ends
do not count.
-/

namespace KernelAlgebra.Pipeline

open Assembly

def tokenText (t : Token) : String :=
  match t.kind with
  | .eof => "end of expression"
  | .ident | .number | .string => Text.quotedText t.lexeme
  | k => k.name

inductive ExprComplaint where
  | trailing
  | unclosed
  | expectedKernel
  | expectedSeparator (call : String)
  | expectedNumber
  | invalidIndex
  deriving DecidableEq, Repr

structure ExprFault where
  token : Token
  complaint : ExprComplaint
  deriving DecidableEq, Repr

def ExprFault.message (f : ExprFault) : String :=
  let got := tokenText f.token
  match f.complaint with
  | .trailing => s!"unexpected {got} after expression"
  | .unclosed => s!"expected ), got {got}"
  | .expectedKernel => s!"expected kernel name or (, got {got}"
  | .expectedSeparator name => s!"expected , or ) in call to {name}, got {got}"
  | .expectedNumber => s!"expected number after -, got {got}"
  | .invalidIndex => s!"invalid index {f.token.text}"

/-! ## Single tokens -/

def outerJoint? : TokenKind → Option Joint
  | .shiftRight => some .connect
  | .shiftLeft => some .after
  | .tildeGreater => some .connectNamed
  | _ => none

def innerJoint? : TokenKind → Option Joint
  | .ampersand => some .combine
  | .tildeAmpersand => some .combineNamed
  | _ => none

def indexOf? (t : Token) : Option Nat :=
  (Number.natural? t.text).filter (· ≤ Number.maxInteger)

def unquoted (lexeme : Text) : Text := (lexeme.drop 1).dropLast

/-! ## The levels of the grammar -/

section

variable (stop : Token)

def numberAfter (negative : Bool) (t : Token) (rest : List Token) :
    Except ExprFault (Expr × List Token) :=
  match indexOf? t with
  | some n => .ok (.number (if negative then -(n : Int) else n), rest)
  | none => .error ⟨t, .invalidIndex⟩

def negatedNumber : List Token → Except ExprFault (Expr × List Token)
  | t :: rest =>
      if t.kind = .number then numberAfter true t rest else .error ⟨t, .expectedNumber⟩
  | [] => .error ⟨stop, .expectedNumber⟩

mutual

/-- An expression; `stop` is what follows the last token. -/
def expr : Nat → List Token → Except ExprFault (Expr × List Token)
  | 0, ts => .error ⟨ts.headD stop, .expectedKernel⟩
  | fuel + 1, ts => do
      let (left, ts) ← combination fuel ts
      connections fuel left ts

def connections : Nat → Expr → List Token → Except ExprFault (Expr × List Token)
  | 0, _, ts => .error ⟨ts.headD stop, .expectedKernel⟩
  | _ + 1, left, [] => .ok (left, [])
  | fuel + 1, left, t :: ts =>
      match outerJoint? t.kind with
      | none => .ok (left, t :: ts)
      | some joint => do
          let (right, ts) ← combination fuel ts
          connections fuel (.binary joint left right) ts

def combination : Nat → List Token → Except ExprFault (Expr × List Token)
  | 0, ts => .error ⟨ts.headD stop, .expectedKernel⟩
  | fuel + 1, ts => do
      let (left, ts) ← primary fuel ts
      combinations fuel left ts

def combinations : Nat → Expr → List Token → Except ExprFault (Expr × List Token)
  | 0, _, ts => .error ⟨ts.headD stop, .expectedKernel⟩
  | _ + 1, left, [] => .ok (left, [])
  | fuel + 1, left, t :: ts =>
      match innerJoint? t.kind with
      | none => .ok (left, t :: ts)
      | some joint => do
          let (right, ts) ← primary fuel ts
          combinations fuel (.binary joint left right) ts

def primary : Nat → List Token → Except ExprFault (Expr × List Token)
  | 0, ts => .error ⟨ts.headD stop, .expectedKernel⟩
  | _ + 1, [] => .error ⟨stop, .expectedKernel⟩
  | fuel + 1, t :: ts =>
      match t.kind with
      | .ident =>
          match ts with
          | next :: rest =>
              if next.kind = .leftParen then do
                let (args, rest) ← arguments fuel t.text rest
                return (.call t.text args, rest)
              else .ok (.ref t.text, ts)
          | [] => .ok (.ref t.text, [])
      | .leftParen => do
          let (e, ts) ← expr fuel ts
          match ts with
          | next :: rest =>
              if next.kind = .rightParen then .ok (e, rest) else .error ⟨next, .unclosed⟩
          | [] => .error ⟨stop, .unclosed⟩
      | _ => .error ⟨t, .expectedKernel⟩

def arguments : Nat → String → List Token → Except ExprFault (List Expr × List Token)
  | 0, _, ts => .error ⟨ts.headD stop, .expectedKernel⟩
  | fuel + 1, name, ts =>
      match ts with
      | t :: rest =>
          if t.kind = .rightParen then .ok ([], rest) else someArguments fuel name ts
      | [] => someArguments fuel name ts

def someArguments : Nat → String → List Token → Except ExprFault (List Expr × List Token)
  | 0, _, ts => .error ⟨ts.headD stop, .expectedKernel⟩
  | fuel + 1, name, ts => do
      let (e, ts) ← argument fuel ts
      match ts with
      | [] => .error ⟨stop, .expectedSeparator name⟩
      | t :: rest =>
          match t.kind with
          | .comma => do
              let (more, rest) ← someArguments fuel name rest
              return (e :: more, rest)
          | .rightParen => .ok ([e], rest)
          | _ => .error ⟨t, .expectedSeparator name⟩

def argument : Nat → List Token → Except ExprFault (Expr × List Token)
  | 0, ts => .error ⟨ts.headD stop, .expectedKernel⟩
  | fuel + 1, ts =>
      match ts with
      | [] => expr fuel []
      | t :: rest =>
          match t.kind with
          | .string => .ok (.quoted (unquoted t.lexeme), rest)
          | .minus => negatedNumber stop rest
          | .number => numberAfter false t rest
          | _ => expr fuel (t :: rest)

end

/--
A bound on how deep the levels call one another.  No path through the grammar goes around
without taking a token, and none is longer than six levels.
-/
def depthFor (ts : List Token) : Nat := 6 * (ts.length + 1)

def wholeExpr (ts : List Token) : Except ExprFault Expr := do
  match ← expr stop (depthFor ts) ts with
  | (e, []) => .ok e
  | (_, t :: _) => .error ⟨t, .trailing⟩

end

def significant (ts : List Token) : List Token :=
  ts.filter fun t => t.kind ≠ .newline

def parseExpr (source : Text) : Except SourceError Expr := do
  let (ts, stop) ← tokenize source
  (wholeExpr stop (significant ts)).mapError fun f => ⟨f.message, f.token.span, source, none⟩

end KernelAlgebra.Pipeline
