import KernelAlgebra.Assembly.Parser
import KernelAlgebra.Builder
import KernelAlgebra.Text.Lowercase

/-!
# From statements to a program

Names stand for the symbols that were declared before; literals become shared constants.
Lowering stops at the first error.  Symbols that are declared and never used are reported as
warnings, unless they belong to the interface.
-/

namespace KernelAlgebra.Assembly

inductive LowerComplaint where
  | redeclared (name : String) (first : Position)
  | unknownSemantic (text : String)
  | constantNeedsValue (name : String)
  | valueNotAllowed (role : Role) (name : String)
  | literalDestination
  | readOnlyDestination (sym : Symbol)
  | undefinedSymbol (name : String)
  | unused (role : Role) (name : String)
  | refused (e : Error)
  | fault (f : DeclarationFault)

namespace LowerComplaint

def message : LowerComplaint → String
  | redeclared name p => s!"{name} redeclared (first declared at {p.line}:{p.column})"
  | unknownSemantic text => s!"unknown semantic {Text.quoted text}"
  | constantNeedsValue name => s!"constant {name} needs a value"
  | valueNotAllowed role name => s!"{role.name} {name} cannot have a value"
  | literalDestination => "cannot assign to a literal"
  | readOnlyDestination s => s!"cannot write read-only {s.describe}"
  | undefinedSymbol name => s!"undefined symbol {name}"
  | unused role name => s!"{role.name} {name} is declared but never used"
  | refused e => e.message
  | fault f => f.message

def cause : LowerComplaint → Option Error
  | refused e => some e
  | _ => none

end LowerComplaint

structure Entry where
  name : String
  sym : Symbol
  span : Span

structure Lowering where
  builder : Builder
  entries : List Entry
  used : List String
  /-- The conditionals and loops that are open, the innermost first. -/
  opened : List Span

structure LowerFault where
  span : Span
  complaint : LowerComplaint

abbrev LowerM := StateT Lowering (ExceptT LowerFault (StateM Supply))

namespace LowerM

def complain {α : Type} (span : Span) (c : LowerComplaint) : LowerM α :=
  throw ⟨span, c⟩

def modifyBuilder (span : Span) (f : Builder → Except BuilderError Builder) : LowerM Unit := do
  let l ← get
  match f l.builder with
  | .ok b => set { l with builder := b }
  | .error e => complain span (.refused e.toError)

def declare (span : Span)
    (f : Builder → Supply → Except DeclarationFault (Symbol × Builder × Supply)) :
    LowerM Symbol := do
  let l ← get
  let g ← getThe Supply
  match f l.builder g with
  | .ok (s, b, g) =>
      set { l with builder := b }
      set g
      return s
  | .error e => complain span (.fault e)

def find? (name : String) : LowerM (Option Symbol) := do
  let l ← get
  return (l.entries.find? (·.name == name)).map Entry.sym

def view (o : Operand) : LowerM View := do
  match o with
  | .literal values span => return View.full (← declare span fun b g => b.constant g values)
  | .ref name selector neg span =>
      match ← find? name with
      | none => complain span (.undefinedSymbol name)
      | some s =>
          modify fun l => { l with used := name :: l.used }
          if selector = "" then return ⟨s, none, neg⟩
          else
            match readSelector selector with
            | .ok idx => return ⟨s, some idx, neg⟩
            | .error e => complain span (.refused e.toError)

def semanticOf (d : DeclStatement) : LowerM Semantic := do
  if d.semantic = "" then return .attrib
  else
    match Semantic.ofName? (Text.lowercase d.semantic) with
    | some s => return s
    | none => complain d.span (.unknownSemantic d.semantic)

/-- Whether a symbol of this role may carry the values that were written. -/
def checkValues (d : DeclStatement) : LowerM Unit := do
  if d.role = .const || d.role = .uniform then
    if d.role = .const && d.values.isEmpty then
      complain d.span (.constantNeedsValue d.name)
    else if !d.values.isEmpty && d.values.length != d.size then
      complain d.span (.refused
        ⟨.sizeMismatch, s!"{d.name}:{d.size} initialized with {d.values.length} values"⟩)
  else if !d.values.isEmpty then
    complain d.span (.valueNotAllowed d.role d.name)

def declaration (d : DeclStatement) : LowerM Unit := do
  let l ← get
  match l.entries.find? (·.name == d.name) with
  | some first => complain d.span (.redeclared d.name first.span.start)
  | none =>
      let semantic ← semanticOf d
      let scalar := (Scalar.ofName? d.scalar).getD .float32
      checkValues d
      let s ← declare d.span fun b g =>
        b.declare g
          { role := d.role, size := d.size, name := d.name,
            scalar := scalar, semantic := semantic, value := d.values }
      modify fun l => { l with entries := l.entries ++ [⟨d.name, s, d.span⟩] }

def instruction (op : Op) (dst : Operand) (srcs : List Operand) (span : Span) : LowerM Unit := do
  match dst with
  | .literal _ dstSpan => complain dstSpan .literalDestination
  | .ref .. =>
      let d ← view dst
      if d.sym.role.isReadOnly then complain dst.span (.readOnlyDestination d.sym)
      else
        let vs ← srcs.mapM view
        modifyBuilder span fun b => b.emit op d vs

def opening (span : Span) : LowerM Unit :=
  modify fun l => { l with opened := span :: l.opened }

def closing : LowerM Unit :=
  modify fun l => { l with opened := l.opened.drop 1 }

def statement : Statement → LowerM Unit
  | .decl d => declaration d
  | .instr op dst srcs span => instruction op dst srcs span
  | .kill src span => do
      let v ← view src
      modifyBuilder span fun b => b.kill v
  | .openIf cond span => do
      let v ← view cond
      modifyBuilder span fun b => b.openIf v
      opening span
  | .openElse span => modifyBuilder span Builder.openElse
  | .closeIf span => do
      modifyBuilder span Builder.closeIf
      closing
  | .openWhile cond span => do
      let v ← view cond
      modifyBuilder span fun b => b.openWhile v
      opening span
  | .closeWhile span => do
      modifyBuilder span Builder.closeWhile
      closing

end LowerM

structure Lowered where
  program : Program
  warnings : List SourceError

def Lowering.warnings (l : Lowering) (source : Text) : List SourceError :=
  l.entries.filterMap fun e =>
    if l.used.contains e.name || e.sym.isInput || e.sym.isOutput then none
    else some ⟨(LowerComplaint.unused e.sym.role e.name).message, e.span, source, none⟩

def LowerM.file (source : Text) (f : File) : LowerM Lowered := do
  f.statements.forM LowerM.statement
  let l ← get
  match l.builder.finish with
  | .ok (p, b) =>
      set { l with builder := b }
      return ⟨p, l.warnings source⟩
  | .error e => LowerM.complain (l.opened.headD Span.unset) (.refused e.toError)

/-- Lowers a file; `source` only serves the display of errors. -/
def lower (source : Text) (f : File) (g : Supply) : Except SourceError Lowered × Supply :=
  match (((LowerM.file source f).run ⟨Builder.start f.target, [], [], []⟩).run).run g with
  | (.ok (l, _), g) => (.ok l, g)
  | (.error e, g) => (.error ⟨e.complaint.message, e.span, source, e.complaint.cause⟩, g)

end KernelAlgebra.Assembly
