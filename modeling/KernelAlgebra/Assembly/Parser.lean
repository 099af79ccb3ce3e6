import KernelAlgebra.Assembly.Lexer
import KernelAlgebra.Assembly.Statement
import KernelAlgebra.Number.Integer

/-!
# Parsing kernel assembly

A file is read from the front to the end, one line after the other.  A line yields a statement,
nothing, or one error; after an error the parser goes on behind the next newline.
-/

namespace KernelAlgebra.Assembly

inductive ParseComplaint where
  | expectedStatement (got : Token)
  | expectedOperand (got : Token)
  | expectedKind (kind : TokenKind) (got : Token)
  | trailing (got : Token)
  | duplicateTarget (target : String)
  | invalidSize (lexeme name : String)
  | invalidNumber (lexeme : String)
  | twoScalars (name : String)
  | twoSemantics (name : String)
  deriving DecidableEq

def ParseComplaint.message : ParseComplaint → String
  | .expectedStatement t => s!"unexpected {t.described}, expected statement"
  | .expectedOperand t => s!"unexpected {t.described}, expected operand"
  | .expectedKind k t => s!"expected {k.name}, got {t.described}"
  | .trailing t => s!"unexpected {t.described} at end of statement"
  | .duplicateTarget target => s!"duplicate target (already {target})"
  | .invalidSize lexeme name => s!"invalid size {lexeme} for {name}"
  | .invalidNumber lexeme => s!"invalid number {lexeme}"
  | .twoScalars name => s!"{name} has two scalar types"
  | .twoSemantics name => s!"{name} has two semantics"

structure ParseFault where
  token : Token
  complaint : ParseComplaint

/-! ## Reading tokens -/

/-- How far a source has been read: the token read last, those that are left, and the end token. -/
structure Cursor where
  previous : Token
  rest : List Token
  stop : Token

/-- A parser that fails leaves the cursor where the failure was found. -/
abbrev LineParser := EStateM ParseFault Cursor

namespace LineParser

def peek : LineParser Token := do
  let c ← get
  return c.rest.headD c.stop

def peekSecond : LineParser Token := do
  let c ← get
  return (c.rest.drop 1).headD c.stop

/-- Reads the next token; at the end of the source the one that was read last. -/
def advance : LineParser Token := do
  let c ← get
  match c.rest with
  | t :: rest =>
      set { c with previous := t, rest := rest }
      return t
  | [] => return c.previous

def complain {α : Type} (t : Token) (complaint : ParseComplaint) : LineParser α :=
  throw ⟨t, complaint⟩

def check (k : TokenKind) : LineParser Bool := do
  let c ← get
  return (c.rest.head?.map Token.kind) == some k

def take? (k : TokenKind) : LineParser (Option Token) := do
  if ← check k then
    let t ← advance
    return some t
  else
    return none

def accept (k : TokenKind) : LineParser Bool := do
  let t ← take? k
  return t.isSome

def expect (k : TokenKind) : LineParser Token := do
  match ← take? k with
  | some t => return t
  | none =>
      let t ← peek
      complain t (.expectedKind k t)

def spanFrom (start : Token) : LineParser Span := do
  let c ← get
  return ⟨start.start, c.previous.stop⟩

def number : LineParser Float := do
  let t ← expect .number
  match Number.read t.text with
  | .ok x => return x
  | .error _ => complain t (.invalidNumber t.text)

def signedNumber : LineParser Float := do
  let neg ← accept .minus
  let x ← number
  return if neg then -x else x

def separated {α : Type} (item : LineParser α) : Nat → LineParser (List α)
  | 0 => return []
  | fuel + 1 => do
      let x ← item
      if ← accept .comma then
        let more ← separated item fuel
        return x :: more
      else
        return [x]

/-- A list has no more items than there are tokens. -/
def listOf {α : Type} (item : LineParser α) : LineParser (List α) := do
  let c ← get
  separated item (c.rest.length + 1)

/-- A name with an optional selector, a number, or numbers in parentheses; each may have a sign. -/
def operand : LineParser Operand := do
  let start ← peek
  let neg ← accept .minus
  if ← check .number then
    let x ← number
    return .literal [if neg then -x else x] (← spanFrom start)
  else if ← accept .leftParen then
    let values ← listOf signedNumber
    let _ ← expect .rightParen
    return .literal (if neg then values.map (- ·) else values) (← spanFrom start)
  else
    match ← take? .ident with
    | some name =>
        let selector ← if ← accept .dot then expect .ident else pure { name with lexeme := [] }
        return .ref name.text selector.text neg (← spanFrom start)
    | none =>
        let t ← peek
        complain t (.expectedOperand t)

/-! ## Statements -/

inductive Content where
  | target (name : String) (span : Span)
  | statement (s : Statement)
  | nothing

/-- The words between the size and the value: a scalar type and a semantic, each at most once. -/
def attributes (name : String) : Nat → String → String → LineParser (String × String)
  | 0, semantic, scalar => return (semantic, scalar)
  | fuel + 1, semantic, scalar => do
      match ← take? .ident with
      | some t =>
          if (Scalar.ofName? t.text).isSome then
            if scalar != "" then complain t (.twoScalars name)
            else attributes name fuel semantic t.text
          else if semantic != "" then complain t (.twoSemantics name)
          else attributes name fuel t.text scalar
      | none => return (semantic, scalar)

def allAttributes (name : String) : LineParser (String × String) := do
  let c ← get
  attributes name (c.rest.length + 1) "" ""

def sizeOf? (lexeme : String) : Option Nat :=
  (Number.natural? lexeme).filter fun n => 1 ≤ n && n ≤ Number.maxInteger

def declaration (role : Role) : LineParser Statement := do
  let start ← advance
  let name ← expect .ident
  let _ ← expect .colon
  let size ← expect .number
  match sizeOf? size.text with
  | none => complain size (.invalidSize size.text name.text)
  | some n =>
      let (semantic, scalar) ← allAttributes name.text
      let values ← if ← accept .equal then listOf signedNumber else pure []
      return .decl ⟨role, name.text, n, semantic, scalar, values, ← spanFrom start⟩

def startsOperand (t : Token) : Bool :=
  t.kind = .ident || t.kind = .number || t.kind = .minus || t.kind = .leftParen

/--
The opcode behind an equals sign: an identifier is one only if it names an opcode with a
destination and an operand follows.
-/
def opcode : LineParser Op := do
  let t ← peek
  let next ← peekSecond
  match Op.ofName? t.text with
  | some op =>
      if t.kind = .ident && startsOperand next && op.hasDst then
        let _ ← advance
        return op
      else
        return .asn
  | none => return .asn

/--
An identifier at the front of a line names an opcode without a destination, or it is where the
value of the instruction goes.
-/
def instruction : LineParser Content := do
  let start ← peek
  match Op.ofName? start.text with
  | some .kil =>
      let _ ← advance
      let src ← operand
      return .statement (.kill src (← spanFrom start))
  | some .nop =>
      let _ ← advance
      return .nothing
  | _ =>
      let dst ← operand
      let _ ← expect .equal
      let op ← opcode
      let srcs ← listOf operand
      return .statement (.instr op dst srcs (← spanFrom start))

def targetLine (current : String) : LineParser (String × Span) := do
  let start ← advance
  if current != "" then complain start (.duplicateTarget current)
  else
    let backend ← expect .ident
    let _ ← expect .colon
    let stage ← expect .ident
    return (backend.text ++ ":" ++ stage.text, ← spanFrom start)

def content (current : String) : LineParser Content := do
  let start ← peek
  match start.kind with
  | .target =>
      let (name, span) ← targetLine current
      return .target name span
  | .kill =>
      let _ ← advance
      let src ← operand
      return .statement (.kill src (← spanFrom start))
  | .openIf =>
      let _ ← advance
      let cond ← operand
      return .statement (.openIf cond (← spanFrom start))
  | .openWhile =>
      let _ ← advance
      let cond ← operand
      return .statement (.openWhile cond (← spanFrom start))
  | .openElse =>
      let _ ← advance
      return .statement (.openElse start.span)
  | .closeIf =>
      let _ ← advance
      return .statement (.closeIf start.span)
  | .closeWhile =>
      let _ ← advance
      return .statement (.closeWhile start.span)
  | .ident => instruction
  | k =>
      match k.role? with
      | some role => return .statement (← declaration role)
      | none => complain start (.expectedStatement start)

def endOfLine : LineParser Unit := do
  let c ← get
  match c.rest with
  | [] => return ()
  | t :: rest =>
      if t.kind = .eof then return ()
      else if t.kind = .newline then set { c with previous := t, rest := rest }
      else complain t (.trailing t)

end LineParser

namespace Cursor

def atEnd (c : Cursor) : Bool :=
  c.rest.head?.all (·.kind == .eof)

def skipFrom (previous stop : Token) : List Token → Cursor
  | [] => ⟨previous, [], stop⟩
  | t :: rest =>
      if t.kind = .eof then ⟨previous, t :: rest, stop⟩
      else if t.kind = .newline then ⟨t, rest, stop⟩
      else skipFrom t stop rest

def skipLine (c : Cursor) : Cursor := skipFrom c.previous c.stop c.rest

end Cursor

/-! ## Files -/

structure Parsed where
  file : File
  errors : List SourceError

def sourceError (source : Text) (f : ParseFault) : SourceError :=
  ⟨f.complaint.message, f.token.span, source, none⟩

namespace Parsed

def withError (r : Parsed) (e : SourceError) : Parsed :=
  { r with errors := r.errors ++ [e] }

/-- A target counts even if the rest of its line is wrong. -/
def withTarget (r : Parsed) : LineParser.Content → Parsed
  | .target name span => { r with file := { r.file with target := name, targetSpan := span } }
  | _ => r

def withStatement (r : Parsed) : LineParser.Content → Parsed
  | .statement s => { r with file := { r.file with statements := r.file.statements ++ [s] } }
  | _ => r

end Parsed

def parseLine (source : Text) (r : Parsed) (c : Cursor) : Parsed × Cursor :=
  match LineParser.content r.file.target c with
  | .error f c => (r.withError (sourceError source f), c.skipLine)
  | .ok found c =>
      let r := r.withTarget found
      match LineParser.endOfLine c with
      | .error f c => (r.withError (sourceError source f), c.skipLine)
      | .ok _ c => (r.withStatement found, c)

/-- Reads lines up to the end of the source.  Every round takes a token at least. -/
def parseLines (source : Text) : Nat → Parsed → Cursor → Parsed
  | 0, r, _ => r
  | rounds + 1, r, c =>
      if c.atEnd then r
      else
        match LineParser.take? .newline c with
        | .ok (some _) c => parseLines source rounds r c
        | _ =>
            let (r, c) := parseLine source r c
            parseLines source rounds r c

def parseTokens (source : Text) (tokens : List Token) (last : Token) : Parsed :=
  parseLines source (tokens.length + 1) ⟨File.empty, []⟩ ⟨last, tokens, last⟩

def parse (source : Text) : Except SourceError Parsed :=
  (tokenize source).map fun (tokens, last) => parseTokens source tokens last

end KernelAlgebra.Assembly
